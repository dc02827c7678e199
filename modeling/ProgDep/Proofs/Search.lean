import ProgDep.Graph.Walk
import ProgDep.Proofs.Path

/-! What the walks over a graph visit, and in which order.

    The depth-first tour runs on a stack of frames. `explore` is the same search as a recursion, and gives
    the trees it goes through: for each node of a list, unless it was met, enter it, search its successors,
    leave it. `Search` is a run of this recursion. The tour is shown to be such a run, and every fact about
    it is an induction over the run: each node in reach is entered once and left once, a node is left only
    when all its successors have been met, and the spans between entering and leaving are disjoint or one
    inside the other. -/

namespace ProgDep.Digraph

variable {α : Type} [DecidableEq α] {g : Digraph α} {a b n p r x y : α}
  {bs fresh fresh' rest : List α} {es : List (Visit α)}

@[simp]
theorem mem_unmet {met : List α} : x ∈ unmet fresh met ↔ x ∈ fresh ∧ x ∉ met := by
  simp [unmet]

theorem unmet_nil (fresh : List α) : unmet fresh [] = fresh := by simp [unmet]

theorem unmet_unmet (fresh met met' : List α) :
    unmet (unmet fresh met) met' = unmet fresh (met ++ met') := by
  simp [unmet, List.filter_filter, Bool.and_comm]

omit [DecidableEq α] in
theorem idxOf_lt_of_sublist {β : Type} [DecidableEq β] {l : List β} {x y : β} (hl : l.Nodup)
    (h : [x, y].Sublist l) : l.idxOf x < l.idxOf y := by
  obtain ⟨l₁, l₂, rfl, hx, hy⟩ := List.cons_sublist_iff.1 h
  have hy₁ : y ∉ l₁ := fun hm => (List.nodup_append.1 hl).2.2 y hm y (List.singleton_sublist.1 hy) rfl
  have hlt : l₁.idxOf x < l₁.length := List.idxOf_lt_length_iff.2 hx
  rw [List.idxOf_append_of_mem hx, List.idxOf_append_of_notMem hy₁]
  omega

/-- Trees side by side: the root of the first one, the trees below it, and the others. -/
inductive Forest (α : Type) where
  | nil
  | tree (root : α) (below others : Forest α)
  deriving DecidableEq, Repr

namespace Forest

/-- Each root before the trees below it. -/
def preOrder : Forest α → List α
  | .nil => []
  | .tree a below others => a :: (below.preOrder ++ others.preOrder)

/-- Each root after the trees below it. -/
def postOrder : Forest α → List α
  | .nil => []
  | .tree a below others => below.postOrder ++ a :: others.postOrder

/-- Each root is entered before the trees below it and left after them. -/
def visits : Forest α → List (Visit α)
  | .nil => []
  | .tree a below others => .enter a :: below.visits ++ .leave a :: others.visits

omit [DecidableEq α] in
theorem filterMap_left (t : Forest α) : t.visits.filterMap Visit.left? = t.postOrder := by
  induction t with
  | nil => rfl
  | tree a below others ih ih' => simp [visits, postOrder, List.filterMap_cons, Visit.left?, ih, ih']

end Forest

/-- The depth-first search of the nodes `bs`, successors in order: a node that has not been met is a root,
    and the search of its successors is below it; what is met there is not met again. -/
def explore (g : Digraph α) (fresh : List α) : List α → Forest α
  | [] => .nil
  | b :: bs =>
    if _h : b ∈ fresh then
      let below := explore g (unmet fresh [b]) (g.out b)
      .tree b below (explore g (unmet fresh (b :: below.preOrder)) bs)
    else explore g fresh bs
termination_by bs => (fresh.length, bs.length)
decreasing_by
  · left; exact length_unmet_lt _h (List.mem_singleton.2 rfl)
  · left; exact length_unmet_lt _h List.mem_cons_self
  · right; simp

/-- The search of one node that has not been met is one tree. -/
theorem explore_root (g : Digraph α) (hr : r ∈ fresh) :
    g.explore fresh [r] = .tree r (g.explore (unmet fresh [r]) (g.out r)) .nil := by
  rw [explore, dif_pos hr]
  dsimp only
  rw [explore.eq_def _ _ []]

/-- A run of the recursive search of the nodes `bs`: from the nodes not yet met, the events and the nodes
    that are still not met afterwards. -/
inductive Search (g : Digraph α) : List α → List α → List (Visit α) → List α → Prop
  | done (fresh : List α) : Search g fresh [] [] fresh
  | skip {b : α} {fresh bs fresh' : List α} {es : List (Visit α)} :
    b ∉ fresh → Search g fresh bs es fresh' → Search g fresh (b :: bs) es fresh'
  | visit {b : α} {fresh bs mid fresh' : List α} {es es' : List (Visit α)} :
    b ∈ fresh → Search g (unmet fresh [b]) (g.out b) es mid → Search g mid bs es' fresh' →
      Search g fresh (b :: bs) (.enter b :: es ++ .leave b :: es') fresh'

/-- The search goes through the trees. -/
theorem search_explore (g : Digraph α) (fresh bs : List α) :
    Search g fresh bs (g.explore fresh bs).visits (unmet fresh (g.explore fresh bs).preOrder) := by
  fun_induction explore g fresh bs with
  | case1 fresh =>
    rw [Forest.preOrder, unmet_nil]
    exact .done fresh
  | case2 fresh b bs hb below ih ih' =>
    rw [unmet_unmet] at ih ih'
    exact .visit hb ih ih'
  | case3 fresh b bs hb ih => exact .skip hb ih

/-- The span of `y` lies inside the span of `x`. -/
def Encloses (es : List (Visit α)) (x y : α) : Prop :=
  [.enter x, .enter y, .leave y, .leave x].Sublist es

theorem Encloses.idxOf_lt (hes : es.Nodup) (h : Encloses es x y) :
    es.idxOf (.enter x) < es.idxOf (.enter y) ∧ es.idxOf (.leave y) < es.idxOf (.leave x) := by
  have hin : [.enter x, .enter y].Sublist es := (List.sublist_append_left [_, _] [_, _]).trans h
  have hout : [.leave y, .leave x].Sublist es := (List.sublist_append_right [_, _] [_, _]).trans h
  exact ⟨idxOf_lt_of_sublist hes hin, idxOf_lt_of_sublist hes hout⟩

/-- The span of `x` starts before that of `y`: it ends before that too, or it encloses that of `y`, and
    then there is a way from `x` to `y`. -/
def Ahead (g : Digraph α) (es : List (Visit α)) (x y : α) : Prop :=
  [.leave x, .enter y].Sublist es ∨ (Encloses es x y ∧ g.Reaches x y)

omit [DecidableEq α] in
theorem Ahead.mono {es' : List (Visit α)} (h : Ahead g es x y) (hs : es.Sublist es') :
    Ahead g es' x y := by
  rcases h with h | ⟨h, hr⟩
  · exact Or.inl (h.trans hs)
  · exact Or.inr ⟨h.trans hs, hr⟩

namespace Search

theorem subset (h : Search g fresh bs es fresh') : fresh' ⊆ fresh := by
  induction h with
  | done => exact List.Subset.refl _
  | skip _ _ ih => exact ih
  | visit _ _ _ ih ih' => exact fun x hx => (mem_unmet.1 (ih (ih' hx))).1

/-- The frames on top of the stack do what the recursion does. -/
theorem tourFrom_eq (h : Search g fresh bs es fresh') (a : α) (stack : List (α × List α)) :
    g.tourFrom fresh ((a, bs) :: stack) = es ++ .leave a :: g.tourFrom fresh' stack := by
  induction h generalizing a stack with
  | done fresh => rw [tourFrom]; rfl
  | skip hb _ ih => rw [tourFrom, dif_neg hb, ih]
  | visit hb _ _ ih ih' => rw [tourFrom, dif_pos hb, ih, ih']; simp

/-- A node is entered when it was not met before and is met afterwards. -/
theorem enter_mem (h : Search g fresh bs es fresh') : .enter x ∈ es ↔ x ∈ fresh ∧ x ∉ fresh' := by
  induction h with
  | done => simp
  | skip _ _ ih => exact ih
  | @visit b fresh bs mid fresh' es es' hb hs hs' ih ih' =>
    have hsub : x ∈ mid → x ∈ fresh ∧ x ≠ b := fun hx => by simpa using hs.subset hx
    have hsub' : x ∈ fresh' → x ∈ mid := fun hx => hs'.subset hx
    simp only [List.cons_append, List.mem_cons, List.mem_append, ih, ih', mem_unmet, Visit.enter.injEq,
      reduceCtorEq, false_or, List.not_mem_nil, or_false]
    by_cases hxb : x = b
    · subst hxb
      simp only [true_or, true_iff]
      exact ⟨hb, fun hx => (hsub (hsub' hx)).2 rfl⟩
    · constructor
      · rintro (hx | ⟨⟨hx, _⟩, hmid⟩ | ⟨hx, hx'⟩)
        · exact absurd hx hxb
        · exact ⟨hx, fun hx' => hmid (hsub' hx')⟩
        · exact ⟨(hsub hx).1, hx'⟩
      · rintro ⟨hx, hx'⟩
        -- inside the span of `b` or after it
        by_cases hmid : x ∈ mid
        · exact Or.inr (Or.inr ⟨hmid, hx'⟩)
        · exact Or.inr (Or.inl ⟨⟨hx, hxb⟩, hmid⟩)

/-- Exactly what is entered is left. -/
theorem leave_mem (h : Search g fresh bs es fresh') : .leave x ∈ es ↔ .enter x ∈ es := by
  induction h with
  | done => simp
  | skip _ _ ih => exact ih
  | visit _ _ _ ih ih' =>
    simp only [List.cons_append, List.mem_cons, List.mem_append, ih, ih', Visit.leave.injEq,
      Visit.enter.injEq, reduceCtorEq, false_or]
    exact or_left_comm

theorem nodup (h : Search g fresh bs es fresh') : es.Nodup := by
  induction h with
  | done => exact List.nodup_nil
  | skip _ _ ih => exact ih
  | @visit b fresh bs mid fresh' es es' hb hs hs' ih ih' =>
    have hmid : b ∉ mid := fun hx => by simpa using hs.subset hx
    have hb1 : .enter b ∉ es := fun hx => by simpa using hs.enter_mem.1 hx
    have hb2 : .enter b ∉ es' := fun hx => hmid (hs'.enter_mem.1 hx).1
    rw [List.cons_append, List.nodup_cons, List.nodup_append, List.nodup_cons]
    refine ⟨by simp [hb1, hb2], ih, ⟨mt hs'.leave_mem.1 hb2, ih'⟩, ?_⟩
    rintro e he e' he' rfl
    -- nothing is met both inside the span of `b` and after it
    rcases List.mem_cons.1 he' with rfl | he'
    · exact hb1 (hs.leave_mem.1 he)
    · cases e with
      | enter z => exact (hs.enter_mem.1 he).2 (hs'.enter_mem.1 he').1
      | leave z => exact (hs.enter_mem.1 (hs.leave_mem.1 he)).2 (hs'.enter_mem.1 (hs'.leave_mem.1 he')).1

/-- Afterwards all nodes that were to be searched are met. -/
theorem not_mem_fresh (h : Search g fresh bs es fresh') (hx : x ∈ bs) : x ∉ fresh' := by
  induction h with
  | done => exact absurd hx List.not_mem_nil
  | skip hb hs ih =>
    rcases List.mem_cons.1 hx with rfl | hx
    · exact fun hm => hb (hs.subset hm)
    · exact ih hx
  | visit _ hs hs' _ ih' =>
    rcases List.mem_cons.1 hx with rfl | hx
    · exact fun hm => by simpa using hs.subset (hs'.subset hm)
    · exact ih' hx

/-- A node is left when all its successors are met. -/
theorem out_not_mem_fresh (h : Search g fresh bs es fresh') (hx : .enter x ∈ es) (hy : y ∈ g.out x) :
    y ∉ fresh' := by
  induction h with
  | done => exact absurd hx List.not_mem_nil
  | skip _ _ ih => exact ih hx
  | visit _ hs hs' ih ih' =>
    simp only [List.cons_append, List.mem_cons, List.mem_append, Visit.enter.injEq, reduceCtorEq,
      false_or] at hx
    rcases hx with rfl | hx | hx
    · exact fun hm => hs.not_mem_fresh hy (hs'.subset hm)
    · exact fun hm => ih hx (hs'.subset hm)
    · exact ih' hx

theorem reaches (h : Search g fresh bs es fresh') (hx : .enter x ∈ es) : ∃ b ∈ bs, g.Reaches b x := by
  induction h with
  | done => exact absurd hx List.not_mem_nil
  | skip _ _ ih =>
    obtain ⟨b, hb, hr⟩ := ih hx
    exact ⟨b, List.mem_cons_of_mem _ hb, hr⟩
  | @visit b _ _ _ _ _ _ _ _ _ ih ih' =>
    simp only [List.cons_append, List.mem_cons, List.mem_append, Visit.enter.injEq, reduceCtorEq,
      false_or] at hx
    rcases hx with rfl | hx | hx
    · exact ⟨x, List.mem_cons_self, .refl x⟩
    · obtain ⟨z, hz, hr⟩ := ih hx
      exact ⟨b, List.mem_cons_self, .trans (.of_arc (mem_out.1 hz)) hr⟩
    · obtain ⟨z, hz, hr⟩ := ih' hx
      exact ⟨z, List.mem_cons_of_mem _ hz, hr⟩

/-- A node is entered before it is left. -/
theorem span (h : Search g fresh bs es fresh') (hx : .enter x ∈ es) :
    [.enter x, .leave x].Sublist es := by
  induction h with
  | done => exact absurd hx List.not_mem_nil
  | skip _ _ ih => exact ih hx
  | @visit b _ _ _ _ es es' _ _ _ ih ih' =>
    simp only [List.cons_append, List.mem_cons, List.mem_append, Visit.enter.injEq, reduceCtorEq,
      false_or] at hx
    rcases hx with rfl | hx | hx
    · exact ((List.nil_sublist es').cons_cons _ |>.trans (List.sublist_append_right es _)).cons_cons _
    · exact ((ih hx).trans (List.sublist_append_left es _)).cons _
    · exact (((ih' hx).cons _).trans (List.sublist_append_right es _)).cons _

/-- A node is entered because it was to be searched, or inside the span of one of its predecessors. -/
theorem exists_parent (h : Search g fresh bs es fresh') (hx : .enter x ∈ es) :
    x ∈ bs ∨ ∃ p, (p, x) ∈ g.arcs ∧ Encloses es p x := by
  induction h with
  | done => exact absurd hx List.not_mem_nil
  | skip _ _ ih =>
    rcases ih hx with hx | hx
    · exact Or.inl (List.mem_cons_of_mem _ hx)
    · exact Or.inr hx
  | @visit b _ _ _ _ es es' _ hs _ ih ih' =>
    simp only [List.cons_append, List.mem_cons, List.mem_append, Visit.enter.injEq, reduceCtorEq,
      false_or] at hx
    rcases hx with rfl | hx | hx
    · exact Or.inl List.mem_cons_self
    · right
      rcases ih hx with hb | ⟨p, harc, hp⟩
      · refine ⟨b, mem_out.1 hb, ?_⟩
        exact ((hs.span hx).append ((List.nil_sublist es').cons_cons (.leave b))).cons_cons _
      · exact ⟨p, harc, (hp.trans (List.sublist_append_left es _)).cons _⟩
    · rcases ih' hx with hx | ⟨p, harc, hp⟩
      · exact Or.inl (List.mem_cons_of_mem _ hx)
      · exact Or.inr ⟨p, harc, ((hp.cons _).trans (List.sublist_append_right es _)).cons _⟩

/-- Of two spans one starts first. -/
theorem ahead_or (h : Search g fresh bs es fresh') (hx : .enter x ∈ es) (hy : .enter y ∈ es)
    (hne : x ≠ y) : Ahead g es x y ∨ Ahead g es y x := by
  induction h with
  | done => exact absurd hx List.not_mem_nil
  | skip _ _ ih => exact ih hx hy
  | @visit b _ _ _ _ es es' _ hs hs' ih ih' =>
    have left : es.Sublist (.enter b :: es ++ .leave b :: es') :=
      (List.sublist_append_left es _).cons _
    have right : es'.Sublist (.enter b :: es ++ .leave b :: es') :=
      ((List.sublist_cons_self _ es').trans (List.sublist_append_right es _)).cons _
    -- what is entered while the successors of `b` are searched lies in the span of `b`
    have inner : ∀ z, .enter z ∈ es → Ahead g (.enter b :: es ++ .leave b :: es') b z := by
      intro z hz
      obtain ⟨s, hsb, hr⟩ := hs.reaches hz
      refine Or.inr ⟨?_, .trans (.of_arc (mem_out.1 hsb)) hr⟩
      exact ((hs.span hz).append ((List.nil_sublist es').cons_cons (.leave b))).cons_cons _
    have after : ∀ z w, .leave z ∈ es ++ [.leave b] → .enter w ∈ es' →
        Ahead g (.enter b :: es ++ .leave b :: es') z w := by
      intro z w hz hw
      have hsub : [.leave z, .enter w].Sublist ((es ++ [.leave b]) ++ es') :=
        (List.singleton_sublist.2 hz).append (List.singleton_sublist.2 hw)
      rw [List.append_assoc] at hsub
      exact Or.inl (hsub.cons _)
    simp only [List.cons_append, List.mem_cons, List.mem_append, Visit.enter.injEq, reduceCtorEq,
      false_or] at hx hy
    rcases hx with rfl | hx | hx <;> rcases hy with rfl | hy | hy
    · exact absurd rfl hne
    · exact Or.inl (inner y hy)
    · exact Or.inl (after x y (by simp) hy)
    · exact Or.inr (inner x hx)
    · exact (ih hx hy).imp (·.mono left) (·.mono left)
    · exact Or.inl (after x y (by simp [hs.leave_mem.2 hx]) hy)
    · exact Or.inr (after y x (by simp) hx)
    · exact Or.inr (after y x (by simp [hs.leave_mem.2 hy]) hx)
    · exact (ih' hx hy).imp (·.mono right) (·.mono right)

end Search

/-! ### The tour and the post-order -/

/-- The tour goes through the tree of the root, with all nodes that an arc leads to not yet met. -/
theorem tour_eq_visits (g : Digraph α) (r : α) :
    g.tour r = (g.explore (r :: unmet g.targets [r]) [r]).visits := by
  have hfresh : unmet (r :: unmet g.targets [r]) [r] = unmet g.targets [r] := by
    simp [unmet]
  rw [explore_root g List.mem_cons_self, hfresh, tour, (search_explore g _ _).tourFrom_eq, tourFrom]
  rfl

theorem search_tour (g : Digraph α) (r : α) :
    ∃ fresh', Search g (r :: unmet g.targets [r]) [r] (g.tour r) fresh' := by
  rw [tour_eq_visits]
  exact ⟨_, search_explore g _ _⟩

theorem nodup_tour (g : Digraph α) (r : α) : (g.tour r).Nodup := by
  obtain ⟨_, hs⟩ := g.search_tour r
  exact hs.nodup

theorem leave_mem_tour : .leave x ∈ g.tour r ↔ .enter x ∈ g.tour r := by
  obtain ⟨_, hs⟩ := g.search_tour r
  exact hs.leave_mem

/-- What an arc leads to is not met before the tour. -/
theorem mem_fresh_of_arc (r : α) (harc : (a, b) ∈ g.arcs) : b ∈ r :: unmet g.targets [r] := by
  by_cases hb : b = r
  · exact hb ▸ List.mem_cons_self
  · refine List.mem_cons_of_mem _ (mem_unmet.2 ⟨?_, by simpa using hb⟩)
    exact mem_distinct.2 (List.mem_map.2 ⟨_, harc, rfl⟩)

/-- A successor of an entered node was not met before the tour and is met after it, so it is entered. -/
theorem enter_mem_tour_of_path {q : List α} (ha : .enter a ∈ g.tour r) (hq : g.Path a x q) :
    .enter x ∈ g.tour r := by
  obtain ⟨fresh', hs⟩ := g.search_tour r
  induction hq with
  | single => exact ha
  | cons hab _ ih =>
    exact ih (hs.enter_mem.2 ⟨mem_fresh_of_arc r hab, hs.out_not_mem_fresh ha (mem_out.2 hab)⟩)

/-- The tour enters the nodes in reach of the root. -/
theorem enter_mem_tour : .enter x ∈ g.tour r ↔ g.Reaches r x := by
  constructor
  · intro hx
    obtain ⟨_, hs⟩ := g.search_tour r
    obtain ⟨b, hb, hr⟩ := hs.reaches hx
    rwa [List.mem_singleton.1 hb] at hr
  · rintro ⟨p, hp⟩
    exact enter_mem_tour_of_path List.mem_cons_self hp

theorem exists_parent_tour (h : g.Reaches r x) (hne : x ≠ r) :
    ∃ p, (p, x) ∈ g.arcs ∧ Encloses (g.tour r) p x := by
  obtain ⟨_, hs⟩ := g.search_tour r
  rcases hs.exists_parent (enter_mem_tour.2 h) with hx | hp
  · exact absurd (List.mem_singleton.1 hx) hne
  · exact hp

@[simp]
theorem mem_postOrder : x ∈ g.postOrder r ↔ g.Reaches r x := by
  rw [postOrder, List.mem_filterMap, ← enter_mem_tour, ← leave_mem_tour]
  constructor
  · rintro ⟨e, he, hx⟩
    cases e with
    | enter _ => cases hx
    | leave _ => cases hx; exact he
  · exact fun h => ⟨_, h, rfl⟩

theorem nodup_postOrder (g : Digraph α) (r : α) : (g.postOrder r).Nodup := by
  refine List.Nodup.filterMap ?_ (g.nodup_tour r)
  intro e e' x hx hx'
  cases e <;> cases e' <;> simp_all [Visit.left?]

/-- The root comes last. -/
theorem exists_postOrder_eq (g : Digraph α) (r : α) : ∃ l, g.postOrder r = l ++ [r] := by
  rw [postOrder, tour_eq_visits, explore_root g List.mem_cons_self, Forest.filterMap_left]
  exact ⟨_, rfl⟩

/-- Every other node has a predecessor that comes after it. -/
theorem exists_later_predecessor (h : g.Reaches r x) (hne : x ≠ r) :
    ∃ p, (p, x) ∈ g.arcs ∧ [x, p].Sublist (g.postOrder r) := by
  obtain ⟨p, harc, hp⟩ := exists_parent_tour h hne
  exact ⟨p, harc, hp.filterMap Visit.left?⟩

/-! ### The worklist -/

theorem reaches_of_mem_reachFrom (h : x ∈ g.reachFrom fresh bs) : ∃ b ∈ bs, g.Reaches b x := by
  fun_induction reachFrom g fresh bs with
  | case1 => exact absurd h List.not_mem_nil
  | case2 fresh a stack ha ih =>
    rcases List.mem_cons.1 h with rfl | h
    · exact ⟨x, List.mem_cons_self, .refl x⟩
    · obtain ⟨b, hb, hr⟩ := ih h
      rcases List.mem_append.1 hb with hb | hb
      · exact ⟨a, List.mem_cons_self, .trans (.of_arc (mem_out.1 hb)) hr⟩
      · exact ⟨b, List.mem_cons_of_mem _ hb, hr⟩
  | case3 fresh a stack ha ih =>
    obtain ⟨b, hb, hr⟩ := ih h
    exact ⟨b, List.mem_cons_of_mem _ hb, hr⟩

/-- What is on the stack or a successor of something found is found, if it was not met before. -/
theorem mem_reachFrom (hx : x ∈ fresh)
    (h : x ∈ bs ∨ ∃ a ∈ g.reachFrom fresh bs, x ∈ g.out a) : x ∈ g.reachFrom fresh bs := by
  fun_induction reachFrom g fresh bs with
  | case1 => simp at h
  | case2 fresh a stack ha ih =>
    by_cases hxa : x = a
    · exact hxa ▸ List.mem_cons_self
    refine List.mem_cons_of_mem _ (ih (mem_unmet.2 ⟨hx, by simpa using hxa⟩) ?_)
    rcases h with h | ⟨b, hb, hxb⟩
    · exact Or.inl (List.mem_append_right _ ((List.mem_cons.1 h).resolve_left hxa))
    · rcases List.mem_cons.1 hb with rfl | hb
      · exact Or.inl (List.mem_append_left _ hxb)
      · exact Or.inr ⟨b, hb, hxb⟩
  | case3 fresh a stack ha ih =>
    refine ih hx (h.imp_left fun h => ?_)
    rcases List.mem_cons.1 h with rfl | h
    · exact absurd hx ha
    · exact h

theorem nodup_reachFrom (g : Digraph α) (fresh bs : List α) : (g.reachFrom fresh bs).Nodup := by
  have hfresh : ∀ (fresh bs : List α), ∀ x ∈ g.reachFrom fresh bs, x ∈ fresh := by
    intro fresh bs x hx
    fun_induction reachFrom g fresh bs with
    | case1 => exact absurd hx List.not_mem_nil
    | case2 fresh a stack ha ih =>
      rcases List.mem_cons.1 hx with rfl | hx
      · exact ha
      · exact (mem_unmet.1 (ih hx)).1
    | case3 fresh a stack ha ih => exact ih hx
  fun_induction reachFrom g fresh bs with
  | case1 => exact List.nodup_nil
  | case2 fresh a stack ha ih =>
    refine List.nodup_cons.2 ⟨fun hmem => ?_, ih⟩
    simpa using hfresh _ _ a hmem
  | case3 fresh a stack ha ih => exact ih

/-- What is found was on the stack, or comes after one of its predecessors. -/
theorem exists_earlier_predecessor (h : x ∈ g.reachFrom fresh bs) :
    x ∈ bs ∨ ∃ p, (p, x) ∈ g.arcs ∧ [p, x].Sublist (g.reachFrom fresh bs) := by
  fun_induction reachFrom g fresh bs with
  | case1 => exact absurd h List.not_mem_nil
  | case2 fresh a stack ha ih =>
    rcases List.mem_cons.1 h with rfl | h
    · exact Or.inl List.mem_cons_self
    rcases ih h with hx | ⟨p, harc, hp⟩
    · rcases List.mem_append.1 hx with hx | hx
      · exact Or.inr ⟨a, mem_out.1 hx, (List.singleton_sublist.2 h).cons_cons a⟩
      · exact Or.inl (List.mem_cons_of_mem a hx)
    · exact Or.inr ⟨p, harc, hp.cons a⟩
  | case3 fresh a stack ha ih =>
    rcases ih h with hx | hp
    · exact Or.inl (List.mem_cons_of_mem a hx)
    · exact Or.inr hp

theorem mem_reach : x ∈ g.reach bs ↔ ∃ b ∈ bs, g.Reaches b x := by
  constructor
  · exact reaches_of_mem_reachFrom
  · rintro ⟨b, hb, p, hp⟩
    have hb' : b ∈ g.reach bs := mem_reachFrom (by simp [hb]) (Or.inl hb)
    clear hb
    induction hp with
    | single => exact hb'
    | @cons a b c p hab _ ih =>
      refine ih (mem_reachFrom ?_ (Or.inr ⟨a, hb', mem_out.2 hab⟩))
      rw [mem_distinct, List.mem_append, targets, mem_distinct]
      exact Or.inr (List.mem_map.2 ⟨_, hab, rfl⟩)

end ProgDep.Digraph
