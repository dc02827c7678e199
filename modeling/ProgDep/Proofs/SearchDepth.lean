import ProgDep.Proofs.DependenceChains

/-! A deeper search goes on where a shallower one stops. Two searches from one place go through the same
    layers until the smaller bound is used up, so the shallower list is the front part of the deeper one,
    and what the deeper one adds is out of reach within the smaller bound. Each layer takes at least one
    name off those not met yet, so there are no more layers than names: a bound as large as the number of
    instructions cuts nothing off. -/

namespace ProgDep

namespace Digraph

variable {α : Type} [DecidableEq α] {out : α → List α} {fresh layer : List α} {bound bound' : Option Nat}

/-! ### Layers under two bounds -/

theorem layersFrom_of_eq_nil (h : nextLayer out fresh layer = []) :
    layersFrom out fresh layer bound = [] := by
  rw [layersFrom]
  split
  · rfl
  · rw [dif_pos h]

theorem layersFrom_of_ne_nil (hbound : bound ≠ some 0) (h : nextLayer out fresh layer ≠ []) :
    layersFrom out fresh layer bound = nextLayer out fresh layer ++
      layersFrom out (unmet fresh (nextLayer out fresh layer)) (nextLayer out fresh layer)
        (bound.map (· - 1)) := by
  rw [layersFrom, if_neg hbound, dif_neg h]

/-- One layer takes one off both bounds. -/
theorem forall_exists_pred (hle : ∀ n' ∈ bound', ∃ n ∈ bound, n ≤ n') :
    ∀ n' ∈ bound'.map (· - 1), ∃ n ∈ bound.map (· - 1), n ≤ n' := by
  intro m' hm'
  obtain ⟨n', hn', rfl⟩ := Option.map_eq_some_iff.1 hm'
  obtain ⟨n, hn, hle⟩ := hle n' hn'
  exact ⟨n - 1, Option.map_eq_some_iff.2 ⟨n, hn, rfl⟩, by omega⟩

/-- The layers within the smaller bound come first within the larger one. -/
theorem layersFrom_prefix (hle : ∀ n' ∈ bound', ∃ n ∈ bound, n ≤ n') :
    layersFrom out fresh layer bound <+: layersFrom out fresh layer bound' := by
  fun_induction layersFrom out fresh layer bound generalizing bound' with
  | case1 => exact List.nil_prefix
  | case2 => exact List.nil_prefix
  | case3 fresh layer bound hbound next hne =>
    rename_i ih
    have hbound' : bound' ≠ some 0 := by
      intro hzero
      obtain ⟨n, hn, hn0⟩ := hle 0 hzero
      obtain rfl : n = 0 := by omega
      exact hbound hn
    rw [layersFrom_of_ne_nil hbound' hne]
    exact (List.prefix_append_right_inj _).2 (ih (forall_exists_pred hle))

/-- As many layers as there are names not met yet are all layers. -/
theorem layersFrom_eq_unbounded (hle : ∀ n ∈ bound, fresh.length ≤ n) :
    layersFrom out fresh layer bound = layersFrom out fresh layer none := by
  fun_induction layersFrom out fresh layer bound with
  | case1 fresh layer =>
    have hfresh : fresh = [] := List.eq_nil_of_length_eq_zero (Nat.le_zero.1 (hle 0 rfl))
    rw [layersFrom_of_eq_nil]
    simp [nextLayer, hfresh, distinct]
  | case2 fresh layer bound hbound next hnil => rw [layersFrom_of_eq_nil hnil]
  | case3 fresh layer bound hbound next hne =>
    rename_i ih
    obtain ⟨x, hx⟩ := List.exists_mem_of_ne_nil _ hne
    have hfewer := length_unmet_lt (mem_fresh_of_mem_nextLayer hx) hx
    rw [layersFrom_of_ne_nil (by simp) hne, Option.map_none, ih]
    intro m hm
    obtain ⟨n, hn, rfl⟩ := Option.map_eq_some_iff.1 hm
    exact Nat.le_sub_one_of_lt (hfewer.trans_le (hle n hn))

end Digraph

namespace DependenceGraph

variable {g : DependenceGraph} {edges : Site → List (Site × Kinds)} {h : Digraph Site} {mask : Kinds}
  {x y : Site} {bound bound' : Option Int}

/-! ### Searches under two bounds -/

theorem search?_of_pos (hbound : ∀ b ∈ bound, 0 < b) (hx : x ∈ g.instructions) :
    g.search? edges mask bound x = some
      (Digraph.layersFrom (fun y => along mask (edges y)) g.instructions [x] (bound.map Int.toNat)) := by
  have hany : ¬bound.any (· ≤ 0) = true := by
    rw [Option.any_eq_true]
    rintro ⟨b, hb, hle⟩
    have := hbound b hb
    have := of_decide_eq_true hle
    omega
  rw [search?, if_neg hany, within_of_mem hx]

theorem search?_of_nonpos {b : Int} (hb : b ∈ bound) (hle : b ≤ 0) :
    g.search? edges mask bound x = some [] := by
  rw [search?, if_pos ((Option.any_eq_true _ _).2 ⟨b, hb, by simpa using hle⟩)]

/-- A search within a larger bound lists the same, and then perhaps more. -/
theorem exists_prefix (hle : ∀ b' ∈ bound', ∃ b ∈ bound, b ≤ b') (hx : x ∈ g.instructions) :
    ∃ ys ys', g.search? edges mask bound x = some ys ∧ g.search? edges mask bound' x = some ys' ∧
      ys <+: ys' := by
  by_cases hpos : ∀ b ∈ bound, 0 < b
  · have hpos' : ∀ b' ∈ bound', 0 < b' := by
      intro b' hb'
      obtain ⟨b, hb, hbb'⟩ := hle b' hb'
      exact (hpos b hb).trans_le hbb'
    have hle' : ∀ n' ∈ bound'.map Int.toNat, ∃ n ∈ bound.map Int.toNat, n ≤ n' := by
      intro n' hn'
      obtain ⟨b', hb', rfl⟩ := Option.map_eq_some_iff.1 hn'
      obtain ⟨b, hb, hbb'⟩ := hle b' hb'
      exact ⟨b.toNat, Option.map_eq_some_iff.2 ⟨b, hb, rfl⟩, Int.toNat_le_toNat hbb'⟩
    exact ⟨_, _, search?_of_pos hpos hx, search?_of_pos hpos' hx, Digraph.layersFrom_prefix hle'⟩
  · -- a bound that allows no edge gives the empty list, the front part of any other
    push Not at hpos
    obtain ⟨b, hb, hb0⟩ := hpos
    have hsome : ∃ ys', g.search? edges mask bound' x = some ys' := by
      rw [search?]
      split
      · exact ⟨_, rfl⟩
      · exact ⟨_, within_of_mem hx⟩
    obtain ⟨ys', hys'⟩ := hsome
    exact ⟨[], ys', search?_of_nonpos hb hb0, hys', List.nil_prefix⟩

/-- What a search within a larger bound adds is at the end of no way within the smaller one. -/
theorem exists_extension (mask : Kinds) (hout : ∀ a b, b ∈ along mask (edges a) ↔ (a, b) ∈ h.arcs)
    (hnames : ∀ a b, (a, b) ∈ h.arcs → b ∈ g.instructions)
    (hle : ∀ b' ∈ bound', ∃ b ∈ bound, b ≤ b') (hx : x ∈ g.instructions) :
    ∃ ys more, g.search? edges mask bound x = some ys ∧
      g.search? edges mask bound' x = some (ys ++ more) ∧
      ∀ y ∈ more, ∀ n : Nat, 1 ≤ n → (∀ b ∈ bound, (n : Int) ≤ b) → ¬h.Walk n x y := by
  obtain ⟨ys, _, hys, hmore, more, rfl⟩ := exists_prefix hle hx
  obtain ⟨_, hys', hshallow⟩ := exists_search bound hout hnames hx
  obtain ⟨_, hmore', hdeep⟩ := exists_search bound' hout hnames hx
  cases hys.symm.trans hys'
  cases hmore.symm.trans hmore'
  refine ⟨ys, more, hys, hmore, fun y hy n hn hb hw => ?_⟩
  -- within the smaller bound it would be listed twice
  have hlisted : y ∈ ys := (hshallow.mem_iff y).2 ⟨n, hn, hb, hw⟩
  exact (List.nodup_append.1 hdeep.nodup).2.2 y hlisted y hy rfl

/-- A bound of as many edges as there are instructions cuts nothing off. -/
theorem search?_eq_unbounded (hle : ∀ b ∈ bound, (g.instructions.length : Int) ≤ b)
    (hx : x ∈ g.instructions) : g.search? edges mask bound x = g.search? edges mask none x := by
  have hsize : 0 < g.instructions.length := List.length_pos_of_mem hx
  have hpos : ∀ b ∈ bound, 0 < b := by
    intro b hb
    have := hle b hb
    omega
  rw [search?_of_pos hpos hx, search?_of_pos (by simp) hx, Digraph.layersFrom_eq_unbounded, Option.map_none]
  intro n hn
  obtain ⟨b, hb, rfl⟩ := Option.map_eq_some_iff.1 hn
  have := hle b hb
  omega

/-- A deeper search only extends a shallower one. From every instruction of a dependence graph and along
    edges of any choice of kinds, take two bounds, each told to the search or else taken from the settings,
    the second no smaller than the first or missing. What is listed within the first is the front part of
    what is listed within the second, both for what the instruction depends on and for what depends on it,
    and the rest is what no path within the first bound leads to. A bound of at least as many edges as
    there are instructions in the graph gives the same list as no bound. -/
theorem deeper_search_extends {s : Settings} {c : Flow} {d : DefUse} {k : Control}
    (hg : build s c d k = g) (hx : x ∈ g.instructions) (mask : Kinds) {s₁ s₂ : Settings}
    {told₁ told₂ : Option Int}
    (hle : ∀ b₂ ∈ s₂.bound told₂, ∃ b₁ ∈ s₁.bound told₁, b₁ ≤ b₂) :
    (∃ ys more, g.transitiveDependencies? mask (s₁.bound told₁) x = some ys ∧
      g.transitiveDependencies? mask (s₂.bound told₂) x = some (ys ++ more) ∧
      ∀ y ∈ more, ∀ n, 1 ≤ n → s₁.Permits told₁ n → ¬(g.graph mask).Walk n x y) ∧
    (∃ zs more, g.transitiveDependents? mask (s₁.bound told₁) x = some zs ∧
      g.transitiveDependents? mask (s₂.bound told₂) x = some (zs ++ more) ∧
      ∀ z ∈ more, ∀ n, 1 ≤ n → s₁.Permits told₁ n → ¬(g.graph mask).Walk n z x) ∧
    ∀ (s' : Settings) (told : Option Int), (∀ b ∈ s'.bound told, (g.instructions.length : Int) ≤ b) →
      g.transitiveDependencies? mask (s'.bound told) x = g.transitiveDependencies? mask none x ∧
        g.transitiveDependents? mask (s'.bound told) x = g.transitiveDependents? mask none x := by
  have hclosed : g.Closed := hg ▸ closed_build s c d k
  obtain ⟨ys, more, hys, hmore, hfar⟩ := exists_extension mask (fun _ _ => hclosed.mem_arcs.symm)
    (fun _ _ harc => (hclosed.mem_instructions_of_arc harc).2) hle hx
  obtain ⟨zs, more', hzs, hmore', hfar'⟩ := exists_extension (h := (g.graph mask).flip) mask
    (fun _ _ => by rw [Digraph.mem_arcs_flip, hclosed.mem_arcs, mem_along_consumers])
    (fun _ _ harc => (hclosed.mem_instructions_of_arc (Digraph.mem_arcs_flip.1 harc)).1) hle hx
  simp only [← Settings.permits_iff] at hfar hfar'
  refine ⟨⟨ys, more, hys, hmore, hfar⟩, ⟨zs, more', hzs, hmore', ?_⟩, fun s' told hsize => ?_⟩
  · simpa only [Digraph.walk_flip] using hfar'
  · exact ⟨search?_eq_unbounded hsize hx, search?_eq_unbounded hsize hx⟩

/-- From the last value one edge leads to the one before it, and a second edge to the first one. The other
    way round, one edge leads from the first value to the next, and a second edge to the last one. -/
theorem deeper_search_extends_relay :
    let g := Relay.dependence
    let first : Site := ⟨0, Relay.track⟩
    let last : Site := ⟨2, Relay.track⟩
    build Relay.settings Relay.flow (.build Relay.function) ⟨[Relay.track], []⟩ = g ∧
      last ∈ g.instructions ∧ first ∈ g.instructions ∧
      (∀ b₂ ∈ Settings.default.bound none, ∃ b₁ ∈ Relay.settings.bound none, b₁ ≤ b₂) ∧
      g.transitiveDependencies? .all (Relay.settings.bound none) last = some [⟨1, Relay.track⟩] ∧
      g.transitiveDependencies? .all (Settings.default.bound none) last =
        some ([⟨1, Relay.track⟩] ++ [first]) ∧
      ¬(g.graph .all).Walk 1 last first ∧
      g.transitiveDependents? .all (Relay.settings.bound none) first = some [⟨1, Relay.track⟩] ∧
      g.transitiveDependents? .all (Settings.default.bound none) first =
        some ([⟨1, Relay.track⟩] ++ [last]) := by
  intro g first last
  have hlast : last ∈ g.instructions := .tail _ (.tail _ (.head _))
  have hfirst : first ∈ g.instructions := .head _
  have hle : ∀ b₂ ∈ Settings.default.bound none, ∃ b₁ ∈ Relay.settings.bound none, b₁ ≤ b₂ := by
    intro b₂ hb₂
    cases hb₂
  obtain ⟨⟨ys, more, hys, hmore, hfar⟩, _⟩ := deeper_search_extends (g := g) rfl hlast .all hle
  obtain ⟨_, ⟨zs, more', hzs, hmore', _⟩, _⟩ := deeper_search_extends (g := g) rfl hfirst .all hle
  have hshallow : g.transitiveDependencies? .all (Relay.settings.bound none) last =
      some [⟨1, Relay.track⟩] := by cbv
  have hdeep : g.transitiveDependencies? .all (Settings.default.bound none) last =
      some ([⟨1, Relay.track⟩] ++ [first]) := by cbv
  have huses : g.transitiveDependents? .all (Relay.settings.bound none) first =
      some [⟨1, Relay.track⟩] := by cbv
  have hall : g.transitiveDependents? .all (Settings.default.bound none) first =
      some [⟨1, Relay.track⟩, last] := by cbv
  obtain rfl := Option.some.inj (hys.symm.trans hshallow)
  obtain rfl := List.append_cancel_left (Option.some.inj (hmore.symm.trans hdeep))
  obtain rfl := Option.some.inj (hzs.symm.trans huses)
  obtain rfl := List.append_cancel_left (Option.some.inj (hmore'.symm.trans hall))
  exact ⟨rfl, hlast, hfirst, hle, hshallow, hdeep, hfar _ (.head _) 1 le_rfl le_rfl, huses, hmore'⟩

end DependenceGraph

end ProgDep
