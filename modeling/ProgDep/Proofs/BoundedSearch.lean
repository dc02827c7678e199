import Mathlib.Order.Lattice.Nat
import ProgDep.Proofs.DependenceEdges

/-! Searches of the dependence graph list what paths of bounded length lead to, nearest first. A search goes
    layer after layer. After `n` layers, the last layer is what a way of `n` arcs leads to but no shorter
    one, and what has not been met yet is what no way of one to `n` arcs leads to. The start itself has not
    been met then, so it is listed like any other node when a way leads back to it. Each layer keeps this,
    and so the bound on the number of layers is one on the length of ways. -/

namespace ProgDep

namespace Digraph

variable {α : Type} {g : Digraph α} {a b c x y z : α} {m n : Nat}

/-- A way of `n` arcs leads from `a` to `b`. -/
def Walk (g : Digraph α) (n : Nat) (a b : α) : Prop := ∃ p, g.Path a b p ∧ p.length = n + 1

/-- The least number of arcs, at least one, on a way from `a` to `b`; zero if there is no way. -/
noncomputable def distance (g : Digraph α) (a b : α) : Nat := sInf {n | 1 ≤ n ∧ g.Walk n a b}

/-- A way of `n` arcs leads from `a` to `b` and, that of no arc apart, no shorter one. -/
def Nearest (g : Digraph α) (a : α) (n : Nat) (b : α) : Prop :=
  g.Walk n a b ∧ ∀ m, 1 ≤ m → m < n → ¬g.Walk m a b

/-- The list has what a way of at least one arc and of an admitted length leads to from `a`, each once
    and nothing else, in the order of the distance from `a`. -/
structure Enumerates (g : Digraph α) (admitted : Nat → Prop) (a : α) (ys : List α) : Prop where
  mem_iff : ∀ y, y ∈ ys ↔ ∃ n, 1 ≤ n ∧ admitted n ∧ g.Walk n a y
  nodup : ys.Nodup
  sorted : ys.Pairwise fun y z => g.distance a y ≤ g.distance a z

/-! ### Ways -/

theorem walk_zero : g.Walk 0 a b ↔ a = b := by
  constructor
  · rintro ⟨p, hp, hlen⟩
    cases hp with
    | single => rfl
    | cons _ hp =>
      obtain ⟨q, rfl⟩ := hp.eq_cons
      simp at hlen
  · rintro rfl
    exact ⟨[a], .single a, rfl⟩

theorem walk_succ : g.Walk (n + 1) a c ↔ ∃ b, g.Walk n a b ∧ (b, c) ∈ g.arcs := by
  constructor
  · rintro ⟨p, hp, hlen⟩
    rcases hp.eq_snoc with ⟨_, rfl⟩ | ⟨b, q, hq, harc, rfl⟩
    · simp at hlen
    · exact ⟨b, ⟨q, hq, by simpa using hlen⟩, harc⟩
  · rintro ⟨b, ⟨p, hp, hlen⟩, harc⟩
    exact ⟨_, hp.snoc harc, by simp [hlen]⟩

theorem Nearest.distance_eq (h : g.Nearest a n b) (hn : 1 ≤ n) : g.distance a b = n := by
  have hmem : n ∈ {n | 1 ≤ n ∧ g.Walk n a b} := ⟨hn, h.1⟩
  obtain ⟨hpos, hwalk⟩ := Nat.sInf_mem ⟨n, hmem⟩
  refine le_antisymm (Nat.sInf_le hmem) (Nat.not_lt.1 fun hlt => ?_)
  exact h.2 _ hpos hlt hwalk

theorem exists_nearest (h : g.Walk n a b) (hn : 1 ≤ n) : ∃ m, 1 ≤ m ∧ m ≤ n ∧ g.Nearest a m b := by
  classical
  have hex : ∃ m, 1 ≤ m ∧ g.Walk m a b := ⟨n, hn, h⟩
  obtain ⟨hpos, hwalk⟩ := Nat.find_spec hex
  refine ⟨Nat.find hex, hpos, Nat.find_min' hex ⟨hn, h⟩, hwalk, fun m hm hlt hw => ?_⟩
  exact Nat.find_min hex hlt ⟨hm, hw⟩

/-- A shortest way is still a shortest way without its last arc. -/
theorem Nearest.exists_arc (h : g.Nearest a (n + 1) c) : ∃ b, g.Nearest a n b ∧ (b, c) ∈ g.arcs := by
  obtain ⟨b, hb, harc⟩ := walk_succ.1 h.1
  refine ⟨b, ⟨hb, fun m hm hlt hw => ?_⟩, harc⟩
  exact h.2 (m + 1) (by omega) (by omega) (walk_succ.2 ⟨b, hw, harc⟩)

/-- Where there is a layer, there are all layers before it. -/
theorem Nearest.exists_nearer (h : g.Nearest a m c) (hle : n ≤ m) : ∃ b, g.Nearest a n b := by
  induction m generalizing c with
  | zero =>
    obtain rfl : n = 0 := by omega
    exact ⟨c, h⟩
  | succ m ih =>
    by_cases heq : n = m + 1
    · rw [heq]
      exact ⟨c, h⟩
    · obtain ⟨b, hb, _⟩ := h.exists_arc
      exact ih hb (by omega)

/-! ### Layers -/

/-- What a search from `x` has come to after `n` layers: the last layer, and the names not yet met. -/
structure Reached (g : Digraph α) (names : List α) (x : α) (n : Nat) (fresh layer : List α) :
    Prop where
  mem_layer : ∀ y, y ∈ layer ↔ g.Nearest x n y
  mem_fresh : ∀ y, y ∈ fresh ↔ y ∈ names ∧ ∀ m, 1 ≤ m → m ≤ n → ¬g.Walk m x y

theorem reached_start (g : Digraph α) (names : List α) (x : α) : g.Reached names x 0 names [x] where
  mem_layer y := by
    rw [List.mem_singleton, Nearest, walk_zero]
    constructor
    · rintro rfl
      exact ⟨rfl, by omega⟩
    · rintro ⟨rfl, _⟩
      rfl
  mem_fresh y := by
    refine (and_iff_left fun m hm hle => ?_).symm
    omega

/-- What the layers after the first `n` hold, within a bound on their number. -/
structure Lists (g : Digraph α) (x : α) (n : Nat) (bound : Option Nat) (ys : List α) : Prop where
  mem_iff : ∀ y, y ∈ ys ↔ ∃ m, n < m ∧ (∀ b ∈ bound, m ≤ n + b) ∧ g.Nearest x m y
  nodup : ys.Nodup
  sorted : ys.Pairwise fun y z => g.distance x y ≤ g.distance x z

/-- One layer less to come is one layer more behind. -/
theorem forall_map_pred {bound : Option Nat} (hbound : bound ≠ some 0) :
    (∀ b ∈ bound.map (· - 1), m ≤ n + 1 + b) ↔ ∀ b ∈ bound, m ≤ n + b := by
  cases bound with
  | none => simp
  | some b =>
    have hpos : b ≠ 0 := fun h => hbound (h ▸ rfl)
    simp only [Option.map_some, Option.mem_some_iff, forall_eq']
    omega

/-- A layer and what comes after it. -/
theorem Lists.append {next ys : List α} {bound : Option Nat} (hnd : next.Nodup)
    (hnext : ∀ y, y ∈ next ↔ g.Nearest x (n + 1) y) (hbound : bound ≠ some 0)
    (h : g.Lists x (n + 1) (bound.map (· - 1)) ys) : g.Lists x n bound (next ++ ys) := by
  have hnear : ∀ y ∈ next, g.distance x y = n + 1 := by
    intro y hy
    exact ((hnext y).1 hy).distance_eq (by omega)
  have hfar : ∀ y ∈ ys, n + 1 < g.distance x y := by
    intro y hy
    obtain ⟨m, hm, _, hy⟩ := (h.mem_iff y).1 hy
    rwa [hy.distance_eq (by omega)]
  refine ⟨fun y => ?_, ?_, ?_⟩
  · simp only [List.mem_append, hnext, h.mem_iff, forall_map_pred hbound]
    constructor
    · rintro (hy | ⟨m, hm, hb, hy⟩)
      · refine ⟨n + 1, by omega, (forall_map_pred hbound).1 fun b _ => ?_, hy⟩
        omega
      · exact ⟨m, by omega, hb, hy⟩
    · rintro ⟨m, hm, hb, hy⟩
      by_cases heq : m = n + 1
      · exact Or.inl (heq ▸ hy)
      · exact Or.inr ⟨m, by omega, hb, hy⟩
  · rw [List.nodup_append]
    refine ⟨hnd, h.nodup, ?_⟩
    rintro y hy _ hz rfl
    have := hnear y hy
    have := hfar y hz
    omega
  · rw [List.pairwise_append]
    refine ⟨?_, h.sorted, fun y hy z hz => ?_⟩
    · refine List.pairwise_of_forall_mem_list fun y hy z hz => ?_
      rw [hnear y hy, hnear z hz]
    · have := hnear y hy
      have := hfar z hz
      omega

section search

variable [DecidableEq α] {out : α → List α} {names fresh layer : List α}

theorem mem_nextLayer : y ∈ nextLayer out fresh layer ↔ y ∈ fresh ∧ ∃ z ∈ layer, y ∈ out z := by
  simp [nextLayer, and_comm]

/-- One more layer. -/
theorem Reached.step (hout : ∀ a b, b ∈ out a ↔ (a, b) ∈ g.arcs) (hnames : ∀ a b, (a, b) ∈ g.arcs → b ∈ names)
    (h : g.Reached names x n fresh layer) :
    g.Reached names x (n + 1) (unmet fresh (nextLayer out fresh layer)) (nextLayer out fresh layer) := by
  have hlayer : ∀ y, y ∈ nextLayer out fresh layer ↔ g.Nearest x (n + 1) y := by
    intro y
    simp only [mem_nextLayer, h.mem_fresh, h.mem_layer, hout]
    constructor
    · rintro ⟨⟨_, hnew⟩, z, hz, harc⟩
      exact ⟨walk_succ.2 ⟨z, hz.1, harc⟩, fun m hm hlt => hnew m hm (by omega)⟩
    · intro hy
      obtain ⟨z, hz, harc⟩ := hy.exists_arc
      exact ⟨⟨hnames z y harc, fun m hm hle => hy.2 m hm (by omega)⟩, z, hz, harc⟩
  refine ⟨hlayer, fun y => ?_⟩
  rw [mem_unmet, h.mem_fresh, hlayer, and_assoc]
  refine and_congr_right fun _ => ⟨?_, fun hnew => ⟨fun m hm hle => hnew m hm (by omega), ?_⟩⟩
  · rintro ⟨hnew, hnext⟩ m hm hle hw
    by_cases heq : m = n + 1
    · -- a way of this length would have no shorter one beside it
      refine hnext ⟨heq ▸ hw, fun m' hm' hlt => hnew m' hm' (by omega)⟩
    · exact hnew m hm (by omega) hw
  · intro hy
    exact hnew (n + 1) (by omega) le_rfl hy.1

/-- A whole search. -/
theorem Reached.lists (hout : ∀ a b, b ∈ out a ↔ (a, b) ∈ g.arcs)
    (hnames : ∀ a b, (a, b) ∈ g.arcs → b ∈ names) {bound : Option Nat}
    (h : g.Reached names x n fresh layer) : g.Lists x n bound (layersFrom out fresh layer bound) := by
  fun_induction layersFrom out fresh layer bound generalizing n with
  | case1 fresh layer =>
    refine ⟨fun y => ?_, List.nodup_nil, .nil⟩
    refine iff_of_false List.not_mem_nil ?_
    rintro ⟨m, hm, hb, _⟩
    have := hb 0 rfl
    omega
  | case2 fresh layer bound hbound next =>
    rename_i hnil
    -- no layer is empty before the last one
    refine ⟨fun y => ?_, List.nodup_nil, .nil⟩
    refine iff_of_false List.not_mem_nil ?_
    rintro ⟨m, hm, _, hy⟩
    obtain ⟨z, hz⟩ := hy.exists_nearer (n := n + 1) (by omega)
    have hmem := ((h.step hout hnames).mem_layer z).2 hz
    rw [show nextLayer out fresh layer = [] from hnil] at hmem
    cases hmem
  | case3 fresh layer bound hbound next hne =>
    rename_i ih
    have hstep := h.step hout hnames
    exact Lists.append (nodup_distinct _) hstep.mem_layer hbound (ih hstep)

end search

end Digraph

/-- Whether a search may follow as many edges: no more than it is told, or else no more than the settings
    say; any number if neither says one. -/
def Settings.Permits (s : Settings) (told : Option Int) (n : Nat) : Prop :=
  match told, s.maxSearchDepth with
  | some b, _ => (n : Int) ≤ b
  | none, some b => n ≤ b
  | none, none => True

theorem Settings.permits_iff {s : Settings} {told : Option Int} {n : Nat} :
    s.Permits told n ↔ ∀ b ∈ s.bound told, (n : Int) ≤ b := by
  unfold Permits bound
  cases told with
  | some b => simp
  | none => cases s.maxSearchDepth <;> simp

namespace DependenceGraph

variable {g : DependenceGraph} {mask : Kinds} {l m x : Site}

/-- The graph of the edges that are of one of the given kinds. -/
def graph (g : DependenceGraph) (mask : Kinds) : Digraph Site :=
  ⟨(g.edges.filter fun e => e.2.2.meets mask).map fun e => (e.1, e.2.1)⟩

theorem Closed.mem_arcs (h : g.Closed) :
    (l, m) ∈ (g.graph mask).arcs ↔ m ∈ along mask (g.producers l) := by
  have hedge : (l, m) ∈ (g.graph mask).arcs ↔
      l ∈ g.instructions ∧ m ∈ along mask (g.producers l) := by
    simp only [graph, edges, along, List.mem_map, List.mem_filter, List.mem_flatMap]
    constructor
    · rintro ⟨e, ⟨⟨x, hx, p, hp, rfl⟩, hmeets⟩, he⟩
      cases he
      exact ⟨hx, p, ⟨hp, hmeets⟩, rfl⟩
    · rintro ⟨hl, p, ⟨hp, hmeets⟩, rfl⟩
      exact ⟨_, ⟨⟨l, hl, p, hp, rfl⟩, hmeets⟩, rfl⟩
  rw [hedge, and_iff_right_iff_imp]
  intro hm
  obtain ⟨kind, hfound, _⟩ := mem_along_producers.1 hm
  exact h.consumer _ hfound

theorem Closed.mem_instructions_of_arc (h : g.Closed) (harc : (l, m) ∈ (g.graph mask).arcs) :
    l ∈ g.instructions ∧ m ∈ g.instructions := by
  obtain ⟨kind, hfound, _⟩ := mem_along_producers.1 (h.mem_arcs.1 harc)
  exact ⟨h.consumer _ hfound, h.producer _ hfound⟩

/-- A bound on layers is one on edges, if it allows any. -/
theorem forall_map_toNat {bound : Option Int} (hbound : ¬bound.any (· ≤ 0) = true) (n : Nat) :
    (∀ b ∈ bound.map Int.toNat, n ≤ 0 + b) ↔ ∀ b ∈ bound, (n : Int) ≤ b := by
  cases bound with
  | none => simp
  | some b =>
    simp only [Option.any_some, decide_eq_true_eq, not_le] at hbound
    simp only [Option.map_some, Option.mem_some_iff, forall_eq', zero_add]
    omega

/-- A search along edges that are the arcs of a graph between the instructions. -/
theorem exists_search {edges : Site → List (Site × Kinds)} {h : Digraph Site} (bound : Option Int)
    (hout : ∀ a b, b ∈ along mask (edges a) ↔ (a, b) ∈ h.arcs)
    (hnames : ∀ a b, (a, b) ∈ h.arcs → b ∈ g.instructions) (hx : x ∈ g.instructions) :
    ∃ ys, g.search? edges mask bound x = some ys ∧
      h.Enumerates (fun n => ∀ b ∈ bound, (n : Int) ≤ b) x ys := by
  rw [search?]
  by_cases hbound : bound.any (· ≤ 0) = true
  · refine ⟨[], if_pos hbound, fun y => ?_, List.nodup_nil, .nil⟩
    refine iff_of_false List.not_mem_nil ?_
    rintro ⟨n, hn, hb, _⟩
    obtain ⟨b, rfl, hle⟩ := (Option.any_eq_true _ _).1 hbound
    have := hb b rfl
    have := of_decide_eq_true hle
    omega
  · have hlists : h.Lists x 0 (bound.map Int.toNat) _ :=
      (Digraph.reached_start h g.instructions x).lists hout hnames
    refine ⟨_, (if_neg hbound).trans (within_of_mem hx), fun y => ?_, hlists.nodup, hlists.sorted⟩
    simp only [hlists.mem_iff, forall_map_toNat hbound]
    constructor
    · rintro ⟨n, hn, hb, hy⟩
      exact ⟨n, hn, hb, hy.1⟩
    · rintro ⟨n, hn, hb, hw⟩
      obtain ⟨n', hn', hle, hy⟩ := Digraph.exists_nearest hw hn
      refine ⟨n', hn', fun b hmem => ?_, hy⟩
      have := hb b hmem
      omega

/-- Searches list what bounded paths lead to. From every instruction of a dependence graph, along edges of
    any choice of kinds and within any bound, told to the search or else taken from the settings, what the
    instruction depends on and what depends on it are listed in full, each once and nearest first: the ends
    of the paths of at least one edge, and so the instruction itself if such a path leads back to it.
    Whether the instruction depends on another is whether the other is listed. -/
theorem searches_enumerate {s : Settings} {c : Flow} {d : DefUse} {k : Control}
    (hg : build s c d k = g) (hx : x ∈ g.instructions) (mask : Kinds) (s' : Settings)
    (told : Option Int) :
    ∃ ys zs, g.transitiveDependencies? mask (s'.bound told) x = some ys ∧
      g.transitiveDependents? mask (s'.bound told) x = some zs ∧
      (g.graph mask).Enumerates (s'.Permits told) x ys ∧
      (g.graph mask).flip.Enumerates (s'.Permits told) x zs ∧
      ∀ y, g.isTransitivelyDependent? mask (s'.bound told) x y = some (decide (y ∈ ys)) := by
  have hclosed : g.Closed := hg ▸ closed_build s c d k
  have hpermits : s'.Permits told = fun n : Nat => ∀ b ∈ s'.bound told, (n : Int) ≤ b :=
    funext fun n => propext Settings.permits_iff
  obtain ⟨ys, hys, hdown⟩ := exists_search (s'.bound told) (fun a b => hclosed.mem_arcs.symm)
    (fun a b harc => (hclosed.mem_instructions_of_arc harc).2) hx
  obtain ⟨zs, hzs, hup⟩ := exists_search (h := (g.graph mask).flip) (s'.bound told)
    (fun a b => by rw [Digraph.mem_arcs_flip, hclosed.mem_arcs, mem_along_consumers])
    (fun a b harc => (hclosed.mem_instructions_of_arc (Digraph.mem_arcs_flip.1 harc)).1) hx
  rw [hpermits]
  refine ⟨ys, zs, hys, hzs, hdown, hup, fun y => ?_⟩
  rw [isTransitivelyDependent?, transitiveDependencies?, hys]
  rfl

end DependenceGraph

namespace Counting

/-- Searches of one edge, and no memory dependence. -/
def settings : Settings := ⟨some 1, false, true⟩

def control : Control := ⟨[round, rest], [(round, round)]⟩

def dependence : DependenceGraph := .build settings flow (.build function) control

end Counting

namespace DependenceGraph

/-- Through data, one edge leads from the addition back to itself, and one to it from the branch. -/
theorem searches_enumerate_counting :
    build Counting.settings Counting.flow (.build Counting.function) Counting.control =
        Counting.dependence ∧
      ⟨0, Counting.round⟩ ∈ Counting.dependence.instructions ∧
      (Counting.dependence.graph (.ofList [.data])).Enumerates (· ≤ 1) ⟨0, Counting.round⟩
        [⟨0, Counting.round⟩] ∧
      (Counting.dependence.graph (.ofList [.data])).flip.Enumerates (· ≤ 1) ⟨0, Counting.round⟩
        [⟨0, Counting.round⟩, ⟨1, Counting.round⟩] := by
  have hx : ⟨0, Counting.round⟩ ∈ Counting.dependence.instructions := .head _
  obtain ⟨ys, zs, hys, hzs, hdown, hup, _⟩ :=
    searches_enumerate rfl hx (.ofList [.data]) Counting.settings none
  have hdeps : Counting.dependence.transitiveDependencies? (.ofList [.data])
      (Counting.settings.bound none) ⟨0, Counting.round⟩ = some [⟨0, Counting.round⟩] := by cbv
  have huses : Counting.dependence.transitiveDependents? (.ofList [.data])
      (Counting.settings.bound none) ⟨0, Counting.round⟩ =
        some [⟨0, Counting.round⟩, ⟨1, Counting.round⟩] := by cbv
  obtain rfl := Option.some.inj (hys.symm.trans hdeps)
  obtain rfl := Option.some.inj (hzs.symm.trans huses)
  exact ⟨rfl, hx, hdown, hup⟩

end DependenceGraph

end ProgDep
