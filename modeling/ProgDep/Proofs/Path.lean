import Mathlib.Algebra.BigOperators.Ring.Finset
import Mathlib.Data.List.Nodup
import ProgDep.Graph.Basic

/-! Paths of a graph, and dominance said by paths alone. A path carries the list of its nodes, both ends
    included, so its length is one more than the number of its arcs. A node dominates another, seen from
    a root, when the root reaches the second and every path that shows this goes through the first. -/

namespace ProgDep

theorem length_distinct {α : Type} [DecidableEq α] (xs : List α) :
    (distinct xs).length = xs.toFinset.card := by
  rw [← List.toFinset_card_of_nodup (nodup_distinct xs)]
  congr 1
  ext x
  simp

namespace Digraph

variable {α : Type} {g : Digraph α} {a b c d n r x : α} {p q w : List α}

/-- The nodes of a way along the arcs from one node to another. -/
inductive Path (g : Digraph α) : α → α → List α → Prop
  | single (a : α) : Path g a a [a]
  | cons {a b c : α} {p : List α} : (a, b) ∈ g.arcs → Path g b c p → Path g a c (a :: p)

/-- Some path leads from `a` to `b`; no arc is needed from a node to itself. -/
def Reaches (g : Digraph α) (a b : α) : Prop := ∃ p, g.Path a b p

/-- Seen from `r`, every path to `n` goes through `d`, and there is one. -/
def Dominates (g : Digraph α) (r d n : α) : Prop :=
  g.Reaches r n ∧ ∀ p, g.Path r n p → d ∈ p

namespace Path

theorem eq_cons (h : g.Path a b p) : ∃ q, p = a :: q := by
  cases h with
  | single => exact ⟨[], rfl⟩
  | cons _ _ => exact ⟨_, rfl⟩

theorem source_mem (h : g.Path a b p) : a ∈ p := by
  obtain ⟨q, rfl⟩ := h.eq_cons
  exact List.mem_cons_self

theorem target_mem (h : g.Path a b p) : b ∈ p := by
  induction h with
  | single a => exact List.mem_singleton.2 rfl
  | cons _ _ ih => exact List.mem_cons_of_mem _ ih

theorem mem_tail_of_ne (h : g.Path a b p) (hx : x ∈ p) (hne : x ≠ a) : x ∈ p.tail := by
  obtain ⟨q, rfl⟩ := h.eq_cons
  exact (List.mem_cons.1 hx).resolve_left hne

theorem snoc (h : g.Path a b p) (hbc : (b, c) ∈ g.arcs) : g.Path a c (p ++ [c]) := by
  induction h with
  | single a => exact .cons hbc (.single c)
  | cons hab _ ih => exact .cons hab (ih hbc)

theorem append (h : g.Path a b p) (hq : g.Path b c q) : g.Path a c (p ++ q.tail) := by
  induction h with
  | single a =>
    obtain ⟨q', rfl⟩ := hq.eq_cons
    exact hq
  | cons hab _ ih => exact .cons hab (ih hq)

/-- A path with an arc has a last one. -/
theorem eq_snoc (h : g.Path a c w) :
    (a = c ∧ w = [a]) ∨ ∃ b p, g.Path a b p ∧ (b, c) ∈ g.arcs ∧ w = p ++ [c] := by
  induction h with
  | single a => exact Or.inl ⟨rfl, rfl⟩
  | @cons a b c w hab _ ih =>
    right
    rcases ih with ⟨rfl, rfl⟩ | ⟨b', p, hp, hbc, rfl⟩
    · exact ⟨a, [a], .single a, hab, rfl⟩
    · exact ⟨b', a :: p, .cons hab hp, hbc, rfl⟩

/-- A path falls into two at each of its nodes. -/
theorem split (h : g.Path a c w) (hx : x ∈ w) :
    ∃ p q, g.Path a x p ∧ g.Path x c q ∧ w = p ++ q.tail := by
  induction h with
  | single a =>
    obtain rfl := List.mem_singleton.1 hx
    exact ⟨[x], [x], .single x, .single x, rfl⟩
  | @cons a b c w hab hw ih =>
    rcases List.mem_cons.1 hx with rfl | hx
    · exact ⟨[x], x :: w, .single x, .cons hab hw, rfl⟩
    · obtain ⟨p, q, hp, hq, rfl⟩ := ih hx
      exact ⟨a :: p, q, .cons hab hp, hq, rfl⟩

/-- What a path goes round more than once can be left out. -/
theorem exists_nodup (h : g.Path a c w) : ∃ v, g.Path a c v ∧ v.Nodup ∧ v ⊆ w := by
  induction h with
  | single a => exact ⟨[a], .single a, List.nodup_singleton a, List.Subset.refl _⟩
  | @cons a b c w hab _ ih =>
    obtain ⟨v, hv, hnd, hsub⟩ := ih
    by_cases ha : a ∈ v
    · -- the rest of the path comes back to `a`: start there
      obtain ⟨p, q, hp, hq, rfl⟩ := hv.split ha
      obtain ⟨q', rfl⟩ := hq.eq_cons
      obtain ⟨_, hnd', hdis⟩ := List.nodup_append.1 hnd
      have ha' : a ∉ q' := fun hm => hdis a hp.target_mem a hm rfl
      refine ⟨a :: q', hq, List.nodup_cons.2 ⟨ha', hnd'⟩, ?_⟩
      exact List.cons_subset_cons a fun y hy => hsub (List.mem_append_right _ hy)
    · exact ⟨a :: v, .cons hab hv, List.nodup_cons.2 ⟨ha, hnd⟩, List.cons_subset_cons a hsub⟩

theorem flip (h : g.Path a b p) : g.flip.Path b a p.reverse := by
  induction h with
  | single a => exact .single a
  | cons hab _ ih =>
    rw [List.reverse_cons]
    exact ih.snoc (List.mem_map.2 ⟨_, hab, rfl⟩)

end Path

theorem flip_flip (g : Digraph α) : g.flip.flip = g := by
  obtain ⟨arcs⟩ := g
  simp [Digraph.flip]

theorem mem_arcs_flip : (a, b) ∈ g.flip.arcs ↔ (b, a) ∈ g.arcs := by
  simp [Digraph.flip]

theorem path_flip : g.flip.Path a b p ↔ g.Path b a p.reverse := by
  constructor
  · intro h
    have := h.flip
    rwa [flip_flip] at this
  · intro h
    have := h.flip
    rwa [List.reverse_reverse] at this

theorem reaches_flip : g.flip.Reaches a b ↔ g.Reaches b a := by
  constructor
  · rintro ⟨p, hp⟩
    exact ⟨_, path_flip.1 hp⟩
  · rintro ⟨p, hp⟩
    exact ⟨_, hp.flip⟩

namespace Reaches

theorem refl (a : α) : g.Reaches a a := ⟨[a], .single a⟩

theorem trans (h : g.Reaches a b) (h' : g.Reaches b c) : g.Reaches a c := by
  obtain ⟨p, hp⟩ := h
  obtain ⟨q, hq⟩ := h'
  exact ⟨_, hp.append hq⟩

theorem of_arc (h : (a, b) ∈ g.arcs) : g.Reaches a b := ⟨_, .cons h (.single b)⟩

end Reaches

/-- Successors are listed once, so two of them are two nodes. -/
theorem two_le_length_out [DecidableEq α] (hb : (a, b) ∈ g.arcs) :
    2 ≤ (g.out a).length ↔ ∃ c, (a, c) ∈ g.arcs ∧ b ≠ c := by
  have hnd : (g.out a).Nodup := nodup_distinct _
  constructor
  · intro hlen
    by_contra hone
    push Not at hone
    have hsub : g.out a ⊆ [b] := fun c hc => List.mem_singleton.2 (hone c (mem_out.1 hc)).symm
    have := (hnd.subperm hsub).length_le
    rw [List.length_singleton] at this
    omega
  · rintro ⟨c, hc, hne⟩
    have hpair : [b, c].Nodup := by simpa using hne
    have hsub : [b, c] ⊆ g.out a := by simp [mem_out, hb, hc]
    exact (hpair.subperm hsub).length_le

/-- The successors of one node are the arcs from it. -/
theorem length_out [DecidableEq α] (g : Digraph α) (a : α) :
    (g.out a).length = (g.arcs.toFinset.filter (·.1 = a)).card := by
  rw [out, length_distinct, ← Finset.card_image_of_injective _ (Prod.mk_right_injective a)]
  congr 1
  ext e
  simp only [Finset.mem_image, Finset.mem_filter, List.mem_toFinset, List.mem_map, List.mem_filter,
    decide_eq_true_eq]
  constructor
  · rintro ⟨_, ⟨e, ⟨he, rfl⟩, rfl⟩, rfl⟩
    exact ⟨he, rfl⟩
  · rintro ⟨he, rfl⟩
    exact ⟨e.2, ⟨e, ⟨he, rfl⟩, rfl⟩, rfl⟩

/-- The successors of all nodes count each arc once. -/
theorem sum_length_out [DecidableEq α] {names : List α} (hnd : names.Nodup)
    (h : ∀ e ∈ g.arcs, e.1 ∈ names) :
    (names.map fun a => (g.out a).length).sum = g.arcs.toFinset.card := by
  simp only [length_out]
  rw [← List.sum_toFinset _ hnd, ← Finset.card_eq_sum_card_fiberwise]
  intro e he
  simp only [Finset.mem_coe, List.mem_toFinset] at he ⊢
  exact h e he

/-! ### Dominance -/

namespace Dominates

theorem refl (h : g.Reaches r n) : g.Dominates r n n := ⟨h, fun _ hp => hp.target_mem⟩

theorem root (h : g.Reaches r n) : g.Dominates r r n := ⟨h, fun _ hp => hp.source_mem⟩

theorem eq_root (h : g.Dominates r d r) : d = r := List.mem_singleton.1 (h.2 _ (.single r))

/-- A dominator is itself in reach of the root. -/
theorem reaches (h : g.Dominates r d n) : g.Reaches r d := by
  obtain ⟨⟨p, hp⟩, hall⟩ := h
  obtain ⟨q, _, hq, _, _⟩ := hp.split (hall p hp)
  exact ⟨q, hq⟩

theorem trans (h : g.Dominates r d x) (h' : g.Dominates r x n) : g.Dominates r d n := by
  refine ⟨h'.1, fun p hp => ?_⟩
  obtain ⟨q, q', hq, _, rfl⟩ := hp.split (h'.2 p hp)
  exact List.mem_append_left _ (h.2 q hq)

theorem antisymm (h : g.Dominates r d n) (h' : g.Dominates r n d) : d = n := by
  obtain ⟨p, hp⟩ := h.1
  obtain ⟨v, hv, hnd, _⟩ := hp.exists_nodup
  obtain ⟨q, q', hq, hq', rfl⟩ := hv.split (h.2 v hv)
  by_contra hne
  -- a path without repetitions cannot come to `n` before `d` and again after it
  have hn : n ∈ q'.tail := hq'.mem_tail_of_ne hq'.target_mem (Ne.symm hne)
  exact (List.nodup_append.1 hnd).2.2 n (h'.2 q hq) n hn rfl

/-- A node that dominates `n` dominates whatever leads to `n` without passing it. -/
theorem of_path (h : g.Dominates r d n) (hx : g.Reaches r x) (hw : g.Path x n w)
    (hd : d ∈ w → d = x) : g.Dominates r d x := by
  refine ⟨hx, fun p hp => ?_⟩
  rcases List.mem_append.1 (h.2 _ (hp.append hw)) with hm | hm
  · exact hm
  · rw [hd (List.mem_of_mem_tail hm)]
    exact hp.target_mem

/-- A strict dominator dominates every predecessor. -/
theorem of_arc (h : g.Dominates r d n) (hne : d ≠ n) (hx : g.Reaches r x) (harc : (x, n) ∈ g.arcs) :
    g.Dominates r d x := by
  refine h.of_path hx (.cons harc (.single n)) fun hm => ?_
  rcases List.mem_cons.1 hm with rfl | hm
  · rfl
  · exact absurd (List.mem_singleton.1 hm) hne

end Dominates

/-- Dominance against the arcs, said along the arcs. -/
theorem dominates_flip :
    g.flip.Dominates r d n ↔ g.Reaches n r ∧ ∀ p, g.Path n r p → d ∈ p := by
  rw [Dominates, reaches_flip]
  refine and_congr_right fun _ => ⟨fun h p hp => ?_, fun h p hp => ?_⟩
  · exact List.mem_reverse.1 (h _ hp.flip)
  · exact List.mem_reverse.1 (h _ (path_flip.1 hp))

end Digraph

end ProgDep
