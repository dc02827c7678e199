import ProgDep.Proofs.Iteration

/-! A dominator tree answers questions about paths. The way up from a node along the parents lists what
    dominates it, and the tour of the tree is inside one node all the while it is inside another exactly
    when the first dominates the second. -/

namespace ProgDep.Dominance.DominatorTree

open Table

variable {α : Type} [DecidableEq α] {g : Digraph α} {t : DominatorTree α} {a b l n r z : α}

/-! ### Parents -/

theorem link?_table (t : DominatorTree α) (n : α) : t.table.link? n = t.parent? n := by
  obtain ⟨root, links, tour⟩ := t
  induction links with
  | nil => rfl
  | cons e links ih =>
    obtain ⟨k, l⟩ := e
    simp only [table, parent?, List.map_cons] at ih ⊢
    rw [link?_cons, ih, List.find?_cons]
    by_cases h : k = n
    · simp [h]
    · simp [h]

omit [DecidableEq α] in
theorem nodes_table (t : DominatorTree α) : t.table.nodes = t.links.map (·.1) := by
  rw [table, Table.nodes, List.map_map]
  rfl

theorem ascend_of_not_mem : ∀ {links : List (α × α)}, n ∉ links.map (·.1) → ascend links n = []
  | [], _ => rfl
  | (k, l) :: links, h => by
    rw [List.map_cons, List.mem_cons, not_or] at h
    rw [ascend, if_neg h.1, ascend_of_not_mem h.2]

/-- The way up from a node goes on with the way up from its parent, and ends at the root. -/
theorem ascend_eq_cons : ∀ {links : List (α × α)},
    Rooted r (links.map fun e => (e.1, some e.2)) →
    Table.link? (links.map fun e => (e.1, some e.2)) n = some l →
    ascend links n = n :: if n = r then [] else ascend links l
  | (k, j) :: links, h, hl => by
    rw [List.map_cons, link?_cons] at hl
    rcases h.of_cons with ⟨rfl, hj, hnil⟩ | ⟨hk, hj, ht⟩
    · obtain rfl := List.map_eq_nil_iff.1 hnil
      split at hl
      · rename_i hkn
        obtain rfl : k = n := hkn
        rw [ascend, if_pos rfl, if_pos rfl, ascend]
      · cases hl
    · have hkr : k ≠ r := ne_of_isSome hk (Option.isSome_of_eq_some ht.link_root)
      split at hl
      · rename_i hkn
        obtain rfl : k = n := hkn
        obtain rfl : j = l := Option.some.inj hl
        have hkj : k ≠ j := ne_of_isSome hk (hj j rfl)
        rw [ascend, if_pos rfl, if_neg hkr, ascend, if_neg (Ne.symm hkj)]
      · rename_i hkn
        have hkl : k ≠ l := ne_of_isSome hk (ht.link_isSome hl)
        rw [ascend, if_neg (Ne.symm hkn), ascend_eq_cons ht hl, ascend, if_neg (Ne.symm hkl)]

namespace IsFor

theorem rooted (h : t.IsFor g r) : t.table.Rooted r := h.ready.rooted

theorem isDefined_iff (h : t.IsFor g r) : t.isDefined n = true ↔ g.Reaches r n := by
  rw [← h.ready.mem_nodes, nodes_table, isDefined, List.any_eq_true, List.mem_map]
  simp

theorem parent?_isSome (h : t.IsFor g r) (hn : g.Reaches r n) : (t.parent? n).isSome := by
  rw [← link?_table]
  exact h.ready.isSome hn

theorem reaches_of_parent (h : t.IsFor g r) (hl : t.parent? n = some l) : g.Reaches r n := by
  rw [← link?_table] at hl
  exact h.ready.reaches (Option.isSome_of_eq_some hl)

theorem parent?_root (h : t.IsFor g r) : t.parent? r = some r := by
  rw [← link?_table, h.rooted.link_root]

theorem dominators_root (h : t.IsFor g r) : t.dominators r = [r] := by
  rw [dominators, ascend_eq_cons h.rooted h.rooted.link_root, if_pos rfl]

theorem dominators_eq_cons (h : t.IsFor g r) (hl : t.parent? n = some l) (hn : n ≠ r) :
    t.dominators n = n :: t.dominators l := by
  rw [← link?_table] at hl
  rw [dominators, ascend_eq_cons h.rooted hl, if_neg hn]
  rfl

/-- What holds at the root and goes from parents to children holds in the tree. -/
theorem climb {P : α → Prop} (h : t.IsFor g r) (root : P r)
    (step : ∀ n l, t.parent? n = some l → n ≠ r → P l → P n) (hn : g.Reaches r n) : P n := by
  refine h.rooted.climb root (fun n l hl => ?_) (h.ready.isSome hn)
  rw [link?_table] at hl
  exact step n l hl

theorem parent_ne (h : t.IsFor g r) (hl : t.parent? n = some l) (hn : n ≠ r) : l ≠ n := by
  rw [← link?_table] at hl
  rintro rfl
  exact lt_irrefl _ (h.rooted.idxOf_lt hl hn)

theorem dominates_of_parent (h : t.IsFor g r) (hl : t.parent? n = some l) : g.Dominates r l n := by
  have hn := h.reaches_of_parent hl
  rw [← link?_table] at hl
  exact (h.exact n l hn).1 (.step hl (.self l))

/-- The parent is the closest of the strict dominators: the others dominate it. -/
theorem dominates_parent (h : t.IsFor g r) (hl : t.parent? n = some l) (hz : g.Dominates r z n)
    (hne : z ≠ n) : g.Dominates r z l := by
  rw [← link?_table] at hl
  exact h.ready.dominated n l z hl hz hne

/-- The way up lists what dominates a node. -/
theorem mem_dominators (h : t.IsFor g r) : z ∈ t.dominators n ↔ g.Dominates r z n := by
  by_cases hn : g.Reaches r n
  · refine h.climb (P := fun n => z ∈ t.dominators n ↔ g.Dominates r z n) ?_ ?_ hn
    · rw [h.dominators_root, List.mem_singleton]
      exact ⟨fun e => e ▸ .refl (.refl z), fun hz => hz.eq_root⟩
    · intro n l hl hnr ih
      rw [h.dominators_eq_cons hl hnr, List.mem_cons, ih]
      constructor
      · rintro (rfl | hz)
        · exact .refl (h.reaches_of_parent hl)
        · exact hz.trans (h.dominates_of_parent hl)
      · intro hz
        by_cases hne : z = n
        · exact Or.inl hne
        · exact Or.inr (h.dominates_parent hl hz hne)
  · have hlinks : n ∉ t.links.map (·.1) := by rwa [← nodes_table, h.ready.mem_nodes]
    rw [dominators, ascend_of_not_mem hlinks]
    exact ⟨fun hz => absurd hz List.not_mem_nil, fun hz => absurd hz.1 hn⟩

/-- What dominates the parent of a node lies on every path to a predecessor of the node, and nothing
    else does: a node that lies on all of them and is the node itself would be met twice. -/
theorem dominates_parent_iff (h : t.IsFor g r) (hl : t.parent? n = some l) (hn : n ≠ r) :
    g.Dominates r z l ↔ ∀ x w, (x, n) ∈ g.arcs → g.Path r x w → z ∈ w := by
  constructor
  · intro hz x w harc hw
    have hlx := (h.dominates_of_parent hl).of_arc (h.parent_ne hl hn) ⟨w, hw⟩ harc
    exact (hz.trans hlx).2 w hw
  · intro hall
    have hlast : ∀ w, g.Path r n w → ∃ p, w = p ++ [n] ∧ z ∈ p := by
      intro w hw
      rcases hw.eq_snoc with ⟨e, _⟩ | ⟨x, p, hp, harc, rfl⟩
      · exact absurd e.symm hn
      · exact ⟨p, rfl, hall x p harc hp⟩
    have hreach := h.reaches_of_parent hl
    have hz : g.Dominates r z n := by
      refine ⟨hreach, fun w hw => ?_⟩
      obtain ⟨p, rfl, hp⟩ := hlast w hw
      exact List.mem_append_left _ hp
    refine h.dominates_parent hl hz ?_
    obtain ⟨w, hw⟩ := hreach
    obtain ⟨v, hv, hnd, _⟩ := hw.exists_nodup
    obtain ⟨p, rfl, hp⟩ := hlast v hv
    exact (List.nodup_append.1 hnd).2.2 z hp n (List.mem_singleton.2 rfl)

/-- The way up from `n`, cut short at the dominator `l` of `n`, lists the dominators of `n` that do not
    dominate `l`. The cut may be at other dominators of `l` too: they come no earlier. -/
theorem mem_takeWhile_dominators {q : α → Bool} (h : t.IsFor g r) (hcut : q l = false)
    (hq : ∀ x, q x = false → g.Dominates r x l) (hln : g.Dominates r l n) :
    z ∈ (t.dominators n).takeWhile q ↔ g.Dominates r z n ∧ ¬g.Dominates r z l := by
  have hcuts : ∀ x, q x = false → g.Dominates r l x → x = l := fun x hx hlx => (hq x hx).antisymm hlx
  refine h.climb (P := fun n => g.Dominates r l n →
    (z ∈ (t.dominators n).takeWhile q ↔ g.Dominates r z n ∧ ¬g.Dominates r z l)) ?_ ?_ hln.1 hln
  · intro hlr
    obtain rfl := hlr.eq_root
    rw [h.dominators_root, List.takeWhile_cons_of_neg (by simp [hcut])]
    exact ⟨fun hz => absurd hz List.not_mem_nil, fun hz => absurd hz.1 hz.2⟩
  · intro n p hp hn ih hln
    rw [h.dominators_eq_cons hp hn]
    cases hqn : q n with
    | false =>
      rw [List.takeWhile_cons_of_neg (by simp [hqn]), hcuts n hqn hln]
      exact ⟨fun hz => absurd hz List.not_mem_nil, fun hz => absurd hz.1 hz.2⟩
    | true =>
      have hne : l ≠ n := by
        rintro rfl
        rw [hcut] at hqn
        cases hqn
      rw [List.takeWhile_cons_of_pos hqn, List.mem_cons, ih (h.dominates_parent hp hln hne)]
      constructor
      · rintro (rfl | ⟨hz, hzl⟩)
        · exact ⟨.refl hln.1, fun hzl => hne (hln.antisymm hzl)⟩
        · exact ⟨hz.trans (h.dominates_of_parent hp), hzl⟩
      · rintro ⟨hz, hzl⟩
        by_cases hzn : z = n
        · exact Or.inl hzn
        · exact Or.inr ⟨h.dominates_parent hp hz hzn, hzl⟩

/-! ### The tour -/

/-- The arcs of the tree lead from parents to children. -/
theorem mem_arcs (h : t.IsFor g r) : (a, b) ∈ t.graph.arcs ↔ b ≠ r ∧ t.parent? b = some a := by
  have hlink : (b, a) ∈ t.links ↔ t.parent? b = some a := by
    rw [← link?_table]
    constructor
    · intro hb
      exact link?_of_mem h.rooted.nodup (List.mem_map.2 ⟨(b, a), hb, rfl⟩)
    · intro hb
      obtain ⟨⟨b', a'⟩, he, heq⟩ := List.mem_map.1 (mem_of_link hb)
      cases heq
      exact he
  rw [← hlink, graph, graphOf, h.root_eq, List.mem_map]
  constructor
  · rintro ⟨⟨b', a'⟩, he, heq⟩
    cases heq
    rw [List.mem_filter, List.mem_reverse, decide_eq_true_eq] at he
    exact ⟨he.2, he.1⟩
  · rintro ⟨hb, he⟩
    exact ⟨(b, a), List.mem_filter.2 ⟨List.mem_reverse.2 he, by simpa using hb⟩, rfl⟩

/-- The tree has the nodes of the graph. -/
theorem reaches_graph (h : t.IsFor g r) (hn : g.Reaches r n) : t.graph.Reaches r n := by
  refine h.climb (.refl r) (fun n l hl hnr ih => ?_) hn
  exact .trans ih (.of_arc (h.mem_arcs.2 ⟨hnr, hl⟩))

/-- Down the tree is dominance. -/
theorem dominates_of_reaches (h : t.IsFor g r) (ha : g.Reaches r a) (hab : t.graph.Reaches a b) :
    g.Dominates r a b := by
  obtain ⟨p, hp⟩ := hab
  induction hp with
  | single a => exact .refl ha
  | @cons a b c p harc _ ih =>
    have hab := h.dominates_of_parent (h.mem_arcs.1 harc).2
    exact hab.trans (ih hab.1)

/-- The tour enters a child after its parent, and leaves it before. -/
theorem encloses_child (h : t.IsFor g r) (hl : t.parent? n = some l) (hn : n ≠ r) :
    Digraph.Encloses t.tour l n := by
  obtain ⟨p, harc, hp⟩ := Digraph.exists_parent_tour (h.reaches_graph (h.reaches_of_parent hl)) hn
  have hpar := (h.mem_arcs.1 harc).2
  rw [hl] at hpar
  cases hpar
  rw [h.tour_eq]
  exact hp

/-- A node inside whose span that of another lies dominates it. -/
theorem dominates_of_span (h : t.IsFor g r) (ha : g.Reaches r a) (hb : g.Reaches r b)
    (hin : t.tour.idxOf (.enter a) ≤ t.tour.idxOf (.enter b))
    (hout : t.tour.idxOf (.leave b) ≤ t.tour.idxOf (.leave a)) : g.Dominates r a b := by
  by_cases hab : a = b
  · rw [hab]
    exact .refl hb
  rw [h.tour_eq] at hin hout
  obtain ⟨_, hs⟩ := t.graph.search_tour r
  have hb' := Digraph.enter_mem_tour.2 (h.reaches_graph hb)
  have hspan := Digraph.idxOf_lt_of_sublist hs.nodup (hs.span hb')
  -- the other three places of the two spans do not fit the numbers
  rcases hs.ahead_or (Digraph.enter_mem_tour.2 (h.reaches_graph ha)) hb' hab with
    (hlt | ⟨_, hr⟩) | (hlt | ⟨he, _⟩)
  · have := Digraph.idxOf_lt_of_sublist hs.nodup hlt
    omega
  · exact h.dominates_of_reaches ha hr
  · have := Digraph.idxOf_lt_of_sublist hs.nodup hlt
    omega
  · have := he.idxOf_lt hs.nodup
    omega

/-- The span of a node lies inside the spans of those above it. -/
theorem span_of_above (h : t.IsFor g r) (hz : t.table.Above b a) :
    t.tour.idxOf (.enter a) ≤ t.tour.idxOf (.enter b) ∧
      t.tour.idxOf (.leave b) ≤ t.tour.idxOf (.leave a) := by
  induction hz with
  | self b => exact ⟨le_refl _, le_refl _⟩
  | @step b l a hl _ ih =>
    rw [link?_table] at hl
    by_cases hb : b = r
    · rw [hb, h.parent?_root] at hl
      cases hl
      rwa [hb]
    · have hnd : t.tour.Nodup := by
        rw [h.tour_eq]
        exact t.graph.nodup_tour r
      have := (h.encloses_child hl hb).idxOf_lt hnd
      omega

/-- The numbers of the tour answer dominance. -/
theorem dominates_iff (h : t.IsFor g r) : t.dominates a b = true ↔ g.Dominates r a b := by
  rw [dominates, Bool.and_eq_true, Bool.and_eq_true, Bool.and_eq_true, decide_eq_true_eq,
    decide_eq_true_eq, h.isDefined_iff, h.isDefined_iff]
  constructor
  · rintro ⟨⟨⟨ha, hb⟩, hin⟩, hout⟩
    exact h.dominates_of_span ha hb hin hout
  · intro hd
    obtain ⟨hin, hout⟩ := h.span_of_above ((h.exact b a hd.1).2 hd)
    exact ⟨⟨⟨hd.reaches, hd.1⟩, hin⟩, hout⟩

end IsFor

end ProgDep.Dominance.DominatorTree

namespace ProgDep.Flow

open Dominance

/-- Dominance in a flow graph is dominance by paths, both ways: from the entry to a node, and from a node
    to the exit. What is asked about a node outside the tree is denied. -/
theorem dominates_iff_paths (c : Flow) :
    ∃ t p, c.dominatorTree = .ok t ∧ c.postDominatorTree = .ok p ∧
      (∀ d n, t.dominates d n = true ↔
        c.graph.Reaches .entry n ∧ ∀ w, c.graph.Path .entry n w → d ∈ w) ∧
      (∀ d n, p.dominates d n = true ↔
        c.graph.Reaches n .exit ∧ ∀ w, c.graph.Path n .exit w → d ∈ w) ∧
      (∀ d n, ¬(t.isDefined d ∧ t.isDefined n) → t.dominates d n = false) ∧
      (∀ d n, ¬(p.isDefined d ∧ p.isDefined n) → p.dominates d n = false) := by
  obtain ⟨t, ht, hfor⟩ := exists_build c.graph .entry
  obtain ⟨p, hp, hpfor⟩ := exists_build c.graph.flip .exit
  refine ⟨t, p, ht, hp, fun d n => hfor.dominates_iff, fun d n => ?_, fun d n hout => ?_,
    fun d n hout => ?_⟩
  · rw [hpfor.dominates_iff, Digraph.dominates_flip]
  · rw [Bool.eq_false_iff]
    intro hd
    have hd := hfor.dominates_iff.1 hd
    exact hout ⟨hfor.isDefined_iff.2 hd.reaches, hfor.isDefined_iff.2 hd.1⟩
  · rw [Bool.eq_false_iff]
    intro hd
    have hd := hpfor.dominates_iff.1 hd
    exact hout ⟨hpfor.isDefined_iff.2 hd.reaches, hpfor.isDefined_iff.2 hd.1⟩

end ProgDep.Flow
