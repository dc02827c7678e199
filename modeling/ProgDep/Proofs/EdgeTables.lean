import ProgDep.Proofs.BoundedSearch
import ProgDep.Proofs.UnreachableCode

/-! The graphs as they are kept. An analysis fills tables by one call for each edge that it comes across:
    under every node its neighbours one way and the other, under every edge of a flow graph its marks,
    under every neighbour in a dependence graph the kinds of dependence. A call changes what is kept under
    the ends of its edge and nothing else, and a key that is new comes last. After all calls the tables
    hold what the list of the calls says, in its order: the views of the list that the graphs give. A
    search of the tables goes through a queue, and off the front of the queue comes one layer after the
    other. -/

namespace ProgDep

/-! ### What is kept under keys -/

section entries

variable {κ ν δ : Type} [DecidableEq κ]

/-- Changes what is kept under a key. -/
def adjust (f : ν → ν) (k : κ) (t : List (κ × ν)) : List (κ × ν) :=
  t.map fun e => if e.1 = k then (e.1, f e.2) else e

/-- Changes what is kept under a key, or puts something there; a new key comes last. -/
def upsert (f : Option ν → ν) (k : κ) : List (κ × ν) → List (κ × ν)
  | [] => [(k, f none)]
  | e :: t => if e.1 = k then (e.1, f (some e.2)) :: t else e :: upsert f k t

/-- Items by their keys, with what the items of each key come to. -/
def grouped (key : δ → κ) (total : List δ → ν) (ds : List δ) : List (κ × ν) :=
  (distinct (ds.map key)).map fun k => (k, total (ds.filter (key · = k)))

theorem adjust_map {f : ν → ν} {k : κ} (names : List κ) (value : κ → ν) :
    adjust f k (names.map fun a => (a, value a)) =
      names.map fun a => (a, if a = k then f (value a) else value a) := by
  rw [adjust, List.map_map]
  refine List.map_congr_left fun a _ => ?_
  by_cases h : a = k <;> simp [h]

theorem upsert_map {f : Option ν → ν} {k : κ} {value : κ → ν} {names : List κ} (hnd : names.Nodup) :
    upsert f k (names.map fun a => (a, value a)) =
      (names.map fun a => (a, if a = k then f (some (value a)) else value a)) ++
        if k ∈ names then [] else [(k, f none)] := by
  induction names with
  | nil => rfl
  | cons a names ih =>
    obtain ⟨ha, hnd⟩ := List.nodup_cons.1 hnd
    rw [List.map_cons, upsert]
    by_cases h : a = k
    · subst h
      -- no other entry has this key
      have hrest : ∀ b ∈ names, (b, value b) = (b, if b = a then f (some (value b)) else value b) := by
        intro b hb
        rw [if_neg]
        rintro rfl
        exact ha hb
      simp [List.map_congr_left hrest]
    · simp [h, ih hnd, Ne.symm h]

/-- One more item changes what is kept under its key. -/
theorem grouped_concat (key : δ → κ) {total : List δ → ν} (step : ν → δ → ν)
    (hstep : ∀ ds d, total (ds ++ [d]) = step (total ds) d) (ds : List δ) (d : δ) :
    grouped key total (ds ++ [d]) =
      upsert (fun o => step (o.getD (total [])) d) (key d) (grouped key total ds) := by
  rw [grouped, grouped, upsert_map (nodup_distinct _), List.map_append, distinct_append,
    List.map_append]
  congr 1
  · refine List.map_congr_left fun k _ => ?_
    by_cases h : k = key d
    · simp [h, List.filter_append, hstep]
    · simp [h, Ne.symm h, List.filter_append]
  · simp only [mem_distinct]
    by_cases h : key d ∈ ds.map key
    · rw [if_pos h, List.map_singleton, distinct_of_nodup (List.nodup_singleton _),
        List.filter_cons_of_neg (by simpa using h)]
      rfl
    · have hnone : ds.filter (key · = key d) = [] := by
        rw [List.filter_eq_nil_iff]
        intro e he heq
        exact h (List.mem_map.2 ⟨e, he, of_decide_eq_true heq⟩)
      rw [if_neg h, List.map_singleton, distinct_of_nodup (List.nodup_singleton _),
        List.filter_cons_of_pos (by simpa using h)]
      simp [List.filter_append, hnone, ← hstep]

end entries

theorem OrderedSet.insert_ofList {α : Type} [DecidableEq α] (xs : List α) (x : α) :
    (ofList xs).insert x = ofList (xs ++ [x]) := by
  simp [insert, ofList, distinct_append, distinct_of_nodup (nodup_distinct xs)]

namespace Digraph

/-! ### Neighbours -/

section neighbours

variable {α : Type} [DecidableEq α] {names : List α}

/-- The neighbours of each node, those after it and those before it. -/
structure Neighbours (α : Type) where
  out : List (α × OrderedSet α)
  into : List (α × OrderedSet α)

/-- Takes an arc down at both ends, which must be there. -/
def Neighbours.add? (t : Neighbours α) (e : α × α) : Option (Neighbours α) :=
  if e.1 ∈ t.out.map (·.1) ∧ e.2 ∈ t.into.map (·.1) then
    some ⟨adjust (·.insert e.2) e.1 t.out, adjust (·.insert e.1) e.2 t.into⟩
  else none

/-- The neighbours that the given nodes have in a graph. -/
def neighbours (g : Digraph α) (names : List α) : Neighbours α where
  out := names.map fun a => (a, ⟨g.out a, nodup_distinct _⟩)
  into := names.map fun a => (a, ⟨g.into a, nodup_distinct _⟩)

theorem add?_neighbours {arcs : List (α × α)} {e : α × α} (hs : e.1 ∈ names) (ht : e.2 ∈ names) :
    (neighbours ⟨arcs⟩ names).add? e = some (neighbours ⟨arcs ++ [e]⟩ names) := by
  have hinsert : ∀ {a b : α} {near far : α × α → α}, near e = b →
      (if a = b then (OrderedSet.ofList ((arcs.filter (near · = a)).map far)).insert (far e)
        else OrderedSet.ofList ((arcs.filter (near · = a)).map far)) =
      OrderedSet.ofList (((arcs ++ [e]).filter (near · = a)).map far) := by
    rintro a _ near far rfl
    by_cases h : a = near e
    · simp [h, OrderedSet.insert_ofList, List.filter_append]
    · simp [h, Ne.symm h, List.filter_append]
  rw [Neighbours.add?, if_pos ⟨by simpa [neighbours] using hs, by simpa [neighbours] using ht⟩]
  simp only [neighbours, adjust_map]
  congr 2
  · exact List.map_congr_left fun a _ => congrArg _ (hinsert rfl)
  · exact List.map_congr_left fun a _ => congrArg _ (hinsert rfl)

/-- Arc after arc, the neighbours become those in the graph of the arcs. -/
theorem foldlM_add? {arcs : List (α × α)} (h : ∀ e ∈ arcs, e.1 ∈ names ∧ e.2 ∈ names) :
    arcs.foldlM Neighbours.add? (neighbours ⟨[]⟩ names) = some (neighbours ⟨arcs⟩ names) :=
  foldlM_eq_some_of_step (fun arcs => neighbours ⟨arcs⟩ names) fun _ e he =>
    add?_neighbours (h e he).1 (h e he).2

end neighbours

/-! ### Queues -/

section queue

variable {α : Type} [DecidableEq α] {succ : α → List α} {out : α → Option (List α)}
  {bound : Option Int} {fresh names layer : List α} {n : Nat}

/-- The nodes that are met for the first time, as they are tried one after the other. -/
def meetings (fresh : List α) : List α → List α
  | [] => []
  | a :: as => if a ∈ fresh then a :: meetings (unmet fresh [a]) as else meetings fresh as

theorem meetings_eq (fresh as : List α) : meetings fresh as = distinct (as.filter (· ∈ fresh)) := by
  induction as generalizing fresh with
  | nil => rfl
  | cons a as ih =>
    by_cases h : a ∈ fresh
    · rw [meetings, if_pos h, ih, List.filter_cons_of_pos (by simpa using h), distinct, ← distinct_filter,
        List.filter_filter]
      simp [unmet, and_comm]
    · rw [meetings, if_neg h, ih, List.filter_cons_of_neg (by simpa using h)]

theorem mem_meetings {a : α} {as : List α} : a ∈ meetings fresh as ↔ a ∈ as ∧ a ∈ fresh := by
  simp [meetings_eq]

/-- A search through a queue of nodes, each with the number of steps to it: the neighbours of the node at
    the front are tried, unless the bound is reached, and those that are new go to the end. There is no
    result if the neighbours of a node cannot be looked up. -/
def queueFrom (out : α → Option (List α)) (bound : Option Int) (fresh : List α) :
    List (α × Nat) → Option (List α)
  | [] => some []
  | (a, depth) :: queue =>
    if bound.any (· ≤ (depth : Int)) then queueFrom out bound fresh queue
    else
      match out a with
      | none => none
      | some as =>
        let found := meetings fresh as
        (queueFrom out bound (unmet fresh found) (queue ++ found.map (·, depth + 1))).map (found ++ ·)
termination_by queue => (fresh.length, queue.length)
decreasing_by
  · right; simp
  · by_cases h : meetings fresh as = []
    · rw [h]
      simp [unmet, Prod.lex_def]
    · obtain ⟨x, hx⟩ := List.exists_mem_of_ne_nil _ h
      left
      exact length_unmet_lt (mem_meetings.1 hx).2 hx

/-- The next layer is what the nodes of a layer lead to one after the other. -/
theorem nextLayer_cons (a : α) (layer : List α) : nextLayer succ fresh (a :: layer) =
    meetings fresh (succ a) ++ nextLayer succ (unmet fresh (meetings fresh (succ a))) layer := by
  rw [nextLayer, List.flatMap_cons, List.filter_append, distinct_append, ← meetings_eq, nextLayer,
    ← distinct_filter, List.filter_filter]
  congr 2
  refine List.filter_congr fun y _ => ?_
  simp only [mem_unmet, mem_meetings, List.mem_filter, decide_eq_true_eq]
  by_cases h : y ∈ fresh <;> simp [h]

/-- Beyond the bound, nodes are taken off the queue and left alone. -/
theorem queueFrom_of_reached (h : bound.any (· ≤ (n : Int)) = true) (layer : List α) :
    queueFrom out bound fresh (layer.map (·, n)) = some [] := by
  induction layer with
  | nil => rw [List.map_nil, queueFrom]
  | cons a layer ih => rw [List.map_cons, queueFrom, if_pos h, ih]

/-- While a layer is taken off the front of the queue, the next layer comes to its end. -/
theorem queueFrom_layer (h : ¬bound.any (· ≤ (n : Int)) = true)
    (hout : ∀ a ∈ layer, out a = some (succ a)) (later : List (α × Nat)) :
    queueFrom out bound fresh (layer.map (·, n) ++ later) =
      (queueFrom out bound (unmet fresh (nextLayer succ fresh layer))
        (later ++ (nextLayer succ fresh layer).map (·, n + 1))).map (nextLayer succ fresh layer ++ ·) := by
  induction layer generalizing fresh later with
  | nil =>
    have hnil : nextLayer succ fresh [] = [] := rfl
    simp [hnil, unmet]
  | cons a layer ih =>
    obtain ⟨ha, hout⟩ := List.forall_mem_cons.1 hout
    rw [List.map_cons, List.cons_append, queueFrom, if_neg h, ha]
    simp only [List.append_assoc, ih hout, nextLayer_cons, ← unmet_unmet, List.map_append, Option.map_map]
    simp [Function.comp_def]

/-- Once a layer has gone off the queue, the queue holds the next one. -/
theorem queueFrom_next (h : ¬bound.any (· ≤ (n : Int)) = true)
    (hout : ∀ a ∈ layer, out a = some (succ a)) :
    queueFrom out bound fresh (layer.map (·, n)) =
      (queueFrom out bound (unmet fresh (nextLayer succ fresh layer))
        ((nextLayer succ fresh layer).map (·, n + 1))).map (nextLayer succ fresh layer ++ ·) := by
  simpa using queueFrom_layer h hout []

/-- No step is left if the bound is reached. -/
theorem any_le_iff : bound.any (· ≤ (n : Int)) = true ↔
    bound.map (fun b : Int => (b - n).toNat) = some 0 := by
  cases bound with
  | none => simp
  | some b =>
    simp only [Option.any_some, decide_eq_true_eq, Option.map_some, Option.some.injEq]
    omega

/-- Through a queue, the search goes layer after layer. -/
theorem queueFrom_eq_layersFrom (hout : ∀ a ∈ names, out a = some (succ a))
    (hfresh : ∀ a ∈ fresh, a ∈ names) (hlayer : ∀ a ∈ layer, a ∈ names) :
    queueFrom out bound fresh (layer.map (·, n)) =
      some (layersFrom succ fresh layer (bound.map fun b : Int => (b - n).toNat)) := by
  generalize hleft : bound.map (fun b : Int => (b - n).toNat) = left
  fun_induction layersFrom succ fresh layer left generalizing n with
  | case1 fresh layer => exact queueFrom_of_reached (any_le_iff.2 hleft) layer
  | case2 fresh layer left hne next =>
    rename_i hnil
    rw [queueFrom_next (mt any_le_iff.1 (hleft ▸ hne)) fun a ha => hout a (hlayer a ha),
      show nextLayer succ fresh layer = [] from hnil, List.map_nil, queueFrom]
    rfl
  | case3 fresh layer left hne next hne' =>
    rename_i ih
    have hleft' : bound.map (fun b : Int => (b - (n + 1 : Nat)).toNat) = left.map (· - 1) := by
      rw [← hleft, Option.map_map]
      congr 1
      funext b
      simp only [Function.comp_apply]
      omega
    rw [queueFrom_next (mt any_le_iff.1 (hleft ▸ hne)) fun a ha => hout a (hlayer a ha),
      ih (fun a ha => hfresh a (mem_unmet.1 ha).1)
        (fun a ha => hfresh a (mem_fresh_of_mem_nextLayer ha)) hleft']
    rfl

end queue

end Digraph

/-! ### Flow graphs -/

namespace Flow

variable {f : Function} {c : Flow} {u v : Node}

/-- A flow graph as it is kept: the neighbours of the nodes, and under each edge its marks. -/
structure Tables where
  neighbours : Digraph.Neighbours Node
  marks : List ((Node × Node) × List EdgeLabel)

/-- Takes an arrow down. An arrow without a mark makes an edge all the same. -/
def Tables.add? (t : Tables) (a : Arrow) : Option Tables :=
  (t.neighbours.add? (a.source, a.target)).map fun n =>
    ⟨n, upsert (fun ms => ms.getD [] ++ a.mark.toList) (a.source, a.target) t.marks⟩

/-- The tables of a flow graph. -/
def tables (c : Flow) : Tables :=
  ⟨c.graph.neighbours c.nodes, c.edges.map fun e => (e, c.marks e.1 e.2)⟩

theorem edges_eq_grouped (c : Flow) : (c.edges.map fun e => (e, c.marks e.1 e.2)) =
    grouped (fun a : Arrow => (a.source, a.target)) (List.filterMap Arrow.mark) c.arrows := by
  simp [grouped, edges, graph, marks, Prod.ext_iff]

theorem ends_mem_nodes (h : build f = .ok c) (harc : (u, v) ∈ c.graph.arcs) :
    u ∈ c.nodes ∧ v ∈ c.nodes := by
  have hblock : ∀ b ∈ f.blocks, .block b.id ∈ c.nodes := by
    intro b hb
    rw [← (build_eq_ok h).1] at hb
    simp only [nodes, List.cons_append, List.mem_cons, List.mem_append, List.mem_map]
    exact Or.inr (Or.inl ⟨b, hb, rfl⟩)
  have hexit : .exit ∈ c.nodes := by simp [nodes]
  rcases arc_cases h harc with ⟨rfl, b, hb, rfl⟩ | ⟨b, hb, _, _, rfl, ⟨_, rfl⟩ | ⟨_, b', hb', rfl⟩⟩
  · exact ⟨.head _, hblock b hb⟩
  · exact ⟨hblock b hb, hexit⟩
  · exact ⟨hblock b hb, hblock b' hb'⟩

/-- Arrow after arrow, the tables become those of the flow graph: no arrow is refused, the neighbours of
    each node come in the order of the arrows, and so do the edges and the marks on them. -/
theorem foldlM_add?_arrows (h : build f = .ok c) :
    c.arrows.foldlM Tables.add? (tables ⟨c.blocks, []⟩) = some c.tables := by
  refine foldlM_eq_some_of_step (fun as => tables ⟨c.blocks, as⟩) fun as a ha => ?_
  obtain ⟨hs, ht⟩ := ends_mem_nodes h (mem_arcs.2 ⟨a, ha, rfl, rfl⟩)
  have hneighbours : ((graph ⟨c.blocks, as⟩).neighbours c.nodes).add? (a.source, a.target) =
      some ((graph ⟨c.blocks, as ++ [a]⟩).neighbours c.nodes) := by
    simp only [graph, List.map_append, List.map_cons, List.map_nil]
    exact Digraph.add?_neighbours hs ht
  have hmarks : ∀ (as : List Arrow) (a : Arrow), (as ++ [a]).filterMap Arrow.mark =
      as.filterMap Arrow.mark ++ a.mark.toList := by
    intro as a
    cases ha : a.mark <;> simp [ha]
  show Option.map _ (((graph ⟨c.blocks, as⟩).neighbours c.nodes).add? _) = _
  rw [hneighbours, Option.map_some, tables, tables, edges_eq_grouped, edges_eq_grouped,
    grouped_concat _ (fun ms (a : Arrow) => ms ++ a.mark.toList) hmarks]
  rfl

end Flow

/-! ### Control dependences -/

namespace Control

variable {f : Function} {c : Flow}

/-- Arc after arc, the neighbours of the blocks become those in the control dependences of a function. -/
theorem foldlM_add?_arcs (hc : Flow.build f = .ok c) :
    ∃ t k, c.postDominatorTree = .ok t ∧ build c t = .ok k ∧
      k.arcs.foldlM Digraph.Neighbours.add? (Digraph.neighbours ⟨[]⟩ k.blocks) =
        some (k.graph.neighbours k.blocks) := by
  obtain ⟨t, ht, hfor⟩ := Dominance.exists_build c.graph.flip .exit
  obtain ⟨k, hk, hblocks, harcs⟩ := exists_build hc hfor
  refine ⟨t, k, ht, hk, Digraph.foldlM_add? fun e he => ?_⟩
  obtain ⟨hb, _, s, hs, hthrough⟩ := (harcs e.1 e.2).1 he
  rw [hblocks] at hb ⊢
  exact ⟨Flow.mem_blocks_of_reaches hc hs hthrough.reaches, hb⟩

end Control

/-! ### Dependence graphs -/

namespace DependenceGraph

variable {g : DependenceGraph} {near far : Dependence → Site} {x : Site}

/-- A dependence graph as it is kept: under each instruction what it depends on, and what depends on it,
    with the kinds. -/
structure Tables where
  dependencies : List (Site × List (Site × Kinds))
  dependents : List (Site × List (Site × Kinds))

/-- Adds a kind to those under a neighbour. -/
def addKind (k : Kind) (y : Site) : List (Site × Kinds) → List (Site × Kinds) :=
  upsert (fun ks => (ks.getD .none).insert k) y

/-- Takes a dependence down at both ends. A producer that was left out is passed over, a consumer that was
    is refused. -/
def Tables.add? (t : Tables) (d : Dependence) : Option Tables :=
  if d.producer ∉ t.dependencies.map (·.1) then some t
  else if d.consumer ∈ t.dependencies.map (·.1) ∧ d.producer ∈ t.dependents.map (·.1) then
    some ⟨adjust (addKind d.kind d.producer) d.consumer t.dependencies,
      adjust (addKind d.kind d.consumer) d.producer t.dependents⟩
  else none

/-- The tables of a dependence graph. -/
def tables (g : DependenceGraph) : Tables where
  dependencies := g.instructions.map fun x => (x, g.producers x)
  dependents := g.instructions.map fun x => (x, g.consumers x)

/-- One more dependence adds its kind to the view from its near end. -/
theorem view_concat (ds : List Dependence) (d : Dependence) (x : Site) : view near far (ds ++ [d]) x =
    if x = near d then addKind d.kind (far d) (view near far ds x) else view near far ds x := by
  have hkinds : ∀ (ds : List Dependence) (d : Dependence),
      kindsOf (ds ++ [d]) = (kindsOf ds).insert d.kind := by
    intro ds d
    simp [kindsOf, Kinds.ofList]
  have hview : ∀ ds, view near far ds x = grouped far kindsOf (ds.filter (near · = x)) := fun _ => rfl
  rw [hview, hview]
  by_cases h : x = near d
  · rw [if_pos h, List.filter_append, List.filter_singleton, h]
    simp only [decide_true]
    exact grouped_concat far (fun (ks : Kinds) (d : Dependence) => ks.insert d.kind) hkinds _ d
  · rw [if_neg h, List.filter_append, List.filter_singleton]
    simp [Ne.symm h]

theorem add?_tables {found : List Dependence} {sites : List (Site × Instruction)} {d : Dependence}
    (hproducer : d.producer ∈ sites.map (·.1)) (hconsumer : d.consumer ∈ sites.map (·.1)) :
    (tables ⟨sites, found⟩).add? d = some (tables ⟨sites, found ++ [d]⟩) := by
  have hkeys : ∀ {value : Site → List (Site × Kinds)},
      ((sites.map (·.1)).map fun x => (x, value x)).map (·.1) = sites.map (·.1) := by
    intro value
    rw [List.map_map]
    exact List.map_id _
  rw [Tables.add?, tables, instructions, hkeys, hkeys, if_neg (not_not_intro hproducer),
    if_pos ⟨hconsumer, hproducer⟩, adjust_map, adjust_map]
  simp only [tables, instructions, producers_eq_view, consumers_eq_view, view_concat]

theorem not_add?_tables {d : Dependence} (h : d.producer ∉ g.instructions) :
    g.tables.add? d = some g.tables := by
  rw [Tables.add?, if_pos]
  simpa [tables] using h

/-- Call after call, the tables become those of the dependence graph: no dependence is refused, and what
    an instruction depends on and what depends on it come in the order of the calls. -/
theorem foldlM_add?_allFound (s : Settings) (c : Flow) (d : DefUse) (k : Control) :
    (allFound s c d k (keptBlocks s c)).foldlM Tables.add? (tables ⟨(build s c d k).sites, []⟩) =
      some (build s c d k).tables := by
  refine foldlM_eq_some_of_step (fun ds => tables ⟨(build s c d k).sites,
    ds.filter fun e => e.producer ∈ (build s c d k).instructions⟩) fun ds e he => ?_
  by_cases h : e.producer ∈ (build s c d k).instructions
  · have hconsumer := (closed_build s c d k).consumer e (mem_found_build.2 ⟨he, h⟩)
    rw [List.filter_append, List.filter_cons_of_pos (by simpa using h)]
    exact add?_tables h hconsumer
  · rw [List.filter_append, List.filter_cons_of_neg (by simpa using h), List.filter_nil, List.append_nil]
    exact not_add?_tables h

/-- A search of a table, through a queue, is the search of the graph. -/
theorem search?_eq_queueFrom (g : DependenceGraph) (edges : Site → List (Site × Kinds)) (mask : Kinds)
    (bound : Option Int) (x : Site) : g.search? edges mask bound x =
      Digraph.queueFrom
        (fun y => ((g.instructions.map fun z => (z, edges z)).lookup y).map (along mask))
        bound g.instructions [(x, 0)] := by
  rw [search?]
  by_cases hbound : bound.any (· ≤ 0) = true
  · rw [if_pos hbound]
    exact (Digraph.queueFrom_of_reached hbound [x]).symm
  rw [if_neg hbound]
  by_cases hx : x ∈ g.instructions
  · have hlayers : Digraph.queueFrom
        (fun y => ((g.instructions.map fun z => (z, edges z)).lookup y).map (along mask))
        bound g.instructions ([x].map (·, 0)) =
          some (Digraph.layersFrom (fun y => along mask (edges y)) g.instructions [x]
            (bound.map fun b : Int => (b - (0 : Nat)).toNat)) :=
      Digraph.queueFrom_eq_layersFrom
        (fun y hy => by rw [List.lookup_graph edges hy, Option.map_some]) (fun _ h => h)
        (List.forall_mem_singleton.2 hx)
    rw [within_of_mem hx]
    simpa using hlayers.symm
  · have hnone : (g.instructions.map fun z => (z, edges z)).lookup x = none := by
      simp only [List.lookup_eq_none_iff, List.forall_mem_map, bne_iff_ne]
      rintro y hy rfl
      exact hx hy
    rw [within, if_neg (by simpa [contains] using hx), Digraph.queueFrom, if_neg (by simpa using hbound),
      hnone]
    rfl

/-- What an instruction depends on and what depends on it are found in the tables, through a queue. -/
theorem transitive_eq_queueFrom (g : DependenceGraph) (mask : Kinds) (bound : Option Int) (x : Site) :
    g.transitiveDependencies? mask bound x =
        Digraph.queueFrom (fun y => (g.tables.dependencies.lookup y).map (along mask)) bound
          g.instructions [(x, 0)] ∧
      g.transitiveDependents? mask bound x =
        Digraph.queueFrom (fun y => (g.tables.dependents.lookup y).map (along mask)) bound
          g.instructions [(x, 0)] :=
  ⟨g.search?_eq_queueFrom g.producers mask bound x, g.search?_eq_queueFrom g.consumers mask bound x⟩

end DependenceGraph

end ProgDep
