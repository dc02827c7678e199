import Mathlib.Data.Set.Card
import ProgDep.Control
import ProgDep.Proofs.Search
import ProgDep.Proofs.Table

/-! The iteration that finds the links of a dominator tree comes to rest, and at rest it has found
    dominance.

    A link is sound when a path leads down from it that stays behind it in post-order, and when it is not
    above the closest strict dominator: both are said of one link alone, so changing another link cannot
    break them. Hence what dominates a node is always above it. From the other side, after `k` passes
    nothing is above a node that is missing on some path of at most `k` arcs: a pass adds one arc, and
    once the paths without repetitions are covered nothing can change any more. -/

namespace ProgDep.Dominance

open Table

variable {α : Type} [DecidableEq α] {g : Digraph α} {t t' : Table α} {todo : List α}
  {a d l m n p r x y z : α} {k k' : Nat}

/-- The nodes of a pass: reverse post-order without the root. -/
def passOrder (g : Digraph α) (r : α) : List α := (g.postOrder r).reverse.filter (· ≠ r)

/-- What every table of the iteration keeps. -/
structure Sound (g : Digraph α) (r : α) (t : Table α) : Prop where
  nodes_eq : t.nodes = g.postOrder r
  rooted : t.Rooted r
  trail : ∀ n l, t.link? n = some l →
    ∃ w, g.Path l n w ∧ ∀ x ∈ w, t.nodes.idxOf x ≤ t.nodes.idxOf l
  dominated : ∀ n l d, t.link? n = some l → g.Dominates r d n → d ≠ n → g.Dominates r d l

namespace Sound

theorem mem_nodes (h : Sound g r t) : n ∈ t.nodes ↔ g.Reaches r n := by
  rw [h.nodes_eq, Digraph.mem_postOrder]

theorem reaches (h : Sound g r t) (hn : (t.link? n).isSome) : g.Reaches r n :=
  h.mem_nodes.1 (mem_nodes_of_isSome hn)

/-- From whatever is above a node a path leads down to it that stays behind. -/
theorem trail_above (h : Sound g r t) (hz : t.Above n z) :
    ∃ w, g.Path z n w ∧ ∀ x ∈ w, t.nodes.idxOf x ≤ t.nodes.idxOf z := by
  induction hz with
  | self n => exact ⟨[n], .single n, fun x hx => by rw [List.mem_singleton.1 hx]⟩
  | @step n l z hl hz ih =>
    obtain ⟨w, hw, hle⟩ := h.trail n l hl
    obtain ⟨v, hv, hle'⟩ := ih
    have hlz : t.nodes.idxOf l ≤ t.nodes.idxOf z := by
      rcases hz.eq_or_idxOf_lt h.rooted with rfl | hlt
      · exact le_refl _
      · exact hlt.le
    refine ⟨v ++ w.tail, hv.append hw, fun x hx => ?_⟩
    rcases List.mem_append.1 hx with hx | hx
    · exact hle' x hx
    · exact (hle x (List.mem_of_mem_tail hx)).trans hlz

/-- What dominates a linked node is above it. -/
theorem above_of_dominates (h : Sound g r t) (hn : (t.link? n).isSome) (hd : g.Dominates r d n) :
    t.Above n d := by
  refine h.rooted.climb (P := fun n => g.Dominates r d n → t.Above n d) ?_ ?_ hn hd
  · intro hd
    rw [hd.eq_root]
    exact .self r
  · intro n l hl _ ih hd
    by_cases hdn : d = n
    · rw [hdn]
      exact .self n
    · exact .step hl (ih (h.dominated n l d hl hd hdn))

end Sound

/-! ### One node -/

theorem exists_foldlM_meet (ht : t.Rooted r) : ∀ (ps : List α) (p : α), (t.link? p).isSome →
    (∀ q ∈ ps, (t.link? q).isSome) →
    ∃ m, ps.foldlM (fun best q =>
        match t.meet? q best with
        | some m => Except.ok m
        | none => Except.error Breakdown.missing) p = Except.ok m ∧
      (t.link? m).isSome ∧ ∀ z, t.Above m z ↔ t.Above p z ∧ ∀ q ∈ ps, t.Above q z
  | [], p, hp, _ => ⟨p, rfl, hp, by simp⟩
  | q :: ps, p, hp, hps => by
    obtain ⟨m, hm, hat⟩ := ht.exists_meet (hps q List.mem_cons_self) hp
    obtain ⟨m', hm', hlink, habove⟩ := exists_foldlM_meet ht ps m hat.linked
      fun q' hq' => hps q' (List.mem_cons_of_mem q hq')
    refine ⟨m', ?_, hlink, fun z => ?_⟩
    · rw [List.foldlM_cons, hm]
      exact hm'
    · rw [habove, hat.above, List.forall_mem_cons, and_assoc, and_left_comm]

/-- The estimate for a node with a linked predecessor: above it is what is above all of these. -/
theorem exists_estimate (ht : t.Rooted r) (hp : p ∈ g.into n) (hlink : (t.link? p).isSome) :
    ∃ m, t.estimate g n = .ok m ∧ (t.link? m).isSome ∧
      ∀ z, t.Above m z ↔ ∀ q ∈ g.into n, (t.link? q).isSome → t.Above q z := by
  have hmem : ∀ q, q ∈ (g.into n).filter (fun q => (t.link? q).isSome) ↔
      q ∈ g.into n ∧ (t.link? q).isSome := fun q => by rw [List.mem_filter]
  rw [estimate]
  cases hf : (g.into n).filter (fun q => (t.link? q).isSome) with
  | nil =>
    have := (hmem p).2 ⟨hp, hlink⟩
    rw [hf] at this
    exact absurd this List.not_mem_nil
  | cons q qs =>
    rw [hf] at hmem
    obtain ⟨m, hm, hml, habove⟩ := exists_foldlM_meet ht qs q ((hmem q).1 List.mem_cons_self).2
      fun q' hq' => ((hmem q').1 (List.mem_cons_of_mem q hq')).2
    refine ⟨m, hm, hml, fun z => ?_⟩
    rw [habove, ← List.forall_mem_cons (p := fun q => t.Above q z)]
    exact ⟨fun h q' hq' hl => h q' ((hmem q').2 ⟨hq', hl⟩), fun h q' hq' =>
      h q' ((hmem q').1 hq').1 ((hmem q').1 hq').2⟩

/-- Improving a node keeps the table sound, and its new link is above every linked predecessor. All that
    is needed is that the nodes after it in post-order are linked. -/
theorem Sound.exists_improve (h : Sound g r t) (hn : g.Reaches r n) (hne : n ≠ r)
    (hlater : ∀ p, [n, p].Sublist (g.postOrder r) → (t.link? p).isSome) :
    ∃ m, t.improve g n = .ok (t.set n m) ∧ Sound g r (t.set n m) ∧
      ∀ p, (p, n) ∈ g.arcs → (t.link? p).isSome → t.Above p m := by
  obtain ⟨p, harc, hsub⟩ := Digraph.exists_later_predecessor hn hne
  have hp : (t.link? p).isSome := hlater p hsub
  obtain ⟨m, hm, hml, habove⟩ := exists_estimate h.rooted (Digraph.mem_into.2 harc) hp
  have hpred : ∀ q, (q, n) ∈ g.arcs → (t.link? q).isSome → t.Above q m := fun q hq hl =>
    (habove m).1 (.self m) q (Digraph.mem_into.2 hq) hl
  have hnmem : n ∈ t.nodes := h.mem_nodes.2 hn
  have hlt : t.nodes.idxOf n < t.nodes.idxOf m := by
    have hnp : t.nodes.idxOf n < t.nodes.idxOf p :=
      Digraph.idxOf_lt_of_sublist h.rooted.nodup (h.nodes_eq ▸ hsub)
    rcases (hpred p harc hp).eq_or_idxOf_lt h.rooted with rfl | hpm
    · exact hnp
    · exact hnp.trans hpm
  -- down from the new link to `p` and over the arc to `n`
  obtain ⟨w, hw, hle⟩ := h.trail_above (hpred p harc hp)
  have hle' : ∀ x ∈ w ++ [n], t.nodes.idxOf x ≤ t.nodes.idxOf m := by
    intro x hx
    rcases List.mem_append.1 hx with hx | hx
    · exact hle x hx
    · rw [List.mem_singleton.1 hx]
      exact hlt.le
  refine ⟨m, by rw [improve, hm]; rfl, ⟨by rw [nodes_set, h.nodes_eq], h.rooted.set hnmem hne hml hlt,
    fun a l hl => ?_, fun a l d hl hd hda => ?_⟩, hpred⟩
  · rw [nodes_set]
    by_cases ha : a = n
    · subst ha
      rw [link?_set_self hnmem] at hl
      cases hl
      exact ⟨w ++ [a], hw.snoc harc, hle'⟩
    · rw [link?_set_ne ha] at hl
      exact h.trail a l hl
  · by_cases ha : a = n
    · subst ha
      rw [link?_set_self hnmem] at hl
      cases hl
      -- a strict dominator of `a` is above all its linked predecessors, hence above their meet
      have hmd : t.Above m d := by
        refine (habove d).2 fun q hq hl => h.above_of_dominates hl ?_
        exact hd.of_arc hda (h.reaches hl) (Digraph.mem_into.1 hq)
      refine hd.of_path (h.reaches hml) (hw.snoc harc) fun hdw => ?_
      rcases hmd.eq_or_idxOf_lt h.rooted with hdm | hmd
      · exact hdm
      · exact absurd (hle' d hdw) (not_le.2 hmd)
    · rw [link?_set_ne ha] at hl
      exact h.dominated a l d hl hd hda

/-! ### The first table -/

theorem nodes_start (r : α) (post : List α) : (Table.start r post).nodes = post := by
  rw [nodes, Table.start, List.map_map]
  exact List.map_id post

theorem eq_root_of_link?_start {post : List α} (h : (Table.start r post).link? n = some l) :
    n = r ∧ l = r := by
  rw [link?, Option.bind_eq_some_iff] at h
  obtain ⟨e, he, hel⟩ := h
  obtain ⟨m, _, rfl⟩ := List.mem_map.1 (List.mem_of_find?_eq_some he)
  have hmn : m = n := by simpa using List.find?_some he
  by_cases hm : m = r
  · rw [if_pos hm] at hel
    cases hel
    exact ⟨hmn.symm.trans hm, rfl⟩
  · rw [if_neg hm] at hel
    cases hel

theorem rooted_start : ∀ {l : List α}, (l ++ [r]).Nodup → (Table.start r (l ++ [r])).Rooted r
  | [], _ => by
    simp only [Table.start, List.nil_append, List.map_cons, List.map_nil, if_pos]
    exact .root
  | n :: l, h => by
    rw [List.cons_append, List.nodup_cons] at h
    have hne : n ≠ r := fun e => h.1 (e ▸ List.mem_append_right l (List.mem_singleton.2 rfl))
    rw [List.cons_append, Table.start, List.map_cons, if_neg hne]
    exact .cons (by rw [← Table.start, nodes_start]; exact h.1) (fun _ e => by cases e) (rooted_start h.2)

/-! ### Passes -/

/-- A table in the middle of a pass: sound, and linked at every node that is not still to come. -/
structure Ready (g : Digraph α) (r : α) (t : Table α) (todo : List α) : Prop extends Sound g r t where
  past : ∃ past, g.postOrder r = todo.reverse ++ past ∧ r ∈ past ∧ ∀ x ∈ past, (t.link? x).isSome

theorem exists_postOrder_eq_append (g : Digraph α) (r : α) :
    g.postOrder r = (passOrder g r).reverse ++ [r] := by
  obtain ⟨l, hl⟩ := g.exists_postOrder_eq r
  have hnd := g.nodup_postOrder r
  rw [hl] at hnd
  have hr : ∀ x ∈ l.reverse, x ≠ r := by
    intro x hx
    exact (List.nodup_append.1 hnd).2.2 x (List.mem_reverse.1 hx) r (List.mem_singleton.2 rfl)
  have hpass : passOrder g r = l.reverse := by
    rw [passOrder, hl, List.reverse_append, List.reverse_singleton, List.singleton_append,
      List.filter_cons_of_neg (by simp), List.filter_eq_self]
    simpa using hr
  rw [hpass, List.reverse_reverse, hl]

namespace Ready

theorem isSome (h : Ready g r t []) (hn : g.Reaches r n) : (t.link? n).isSome := by
  obtain ⟨past, hpast, _, hlink⟩ := h.past
  rw [List.reverse_nil, List.nil_append] at hpast
  exact hlink n (hpast ▸ Digraph.mem_postOrder.2 hn)

/-- A finished pass may be followed by another. -/
theorem again (h : Ready g r t []) : Ready g r t (passOrder g r) := by
  refine ⟨h.toSound, [r], exists_postOrder_eq_append g r, List.mem_singleton.2 rfl, fun x hx => ?_⟩
  rw [List.mem_singleton.1 hx, h.rooted.link_root]
  rfl

theorem start (g : Digraph α) (r : α) :
    Ready g r (Table.start r (g.postOrder r)) (passOrder g r) := by
  have hpost := exists_postOrder_eq_append g r
  have hrooted := rooted_start (r := r) (hpost ▸ g.nodup_postOrder r)
  rw [← hpost] at hrooted
  refine ⟨⟨nodes_start r _, hrooted, fun n l hl => ?_, fun n l d hl hd hne => ?_⟩, [r], hpost,
    List.mem_singleton.2 rfl, fun x hx => ?_⟩
  · obtain ⟨rfl, rfl⟩ := eq_root_of_link?_start hl
    exact ⟨[l], .single l, fun x hx => by rw [List.mem_singleton.1 hx]⟩
  · obtain ⟨rfl, rfl⟩ := eq_root_of_link?_start hl
    exact absurd hd.eq_root hne
  · rw [List.mem_singleton.1 hx, hrooted.link_root]
    rfl

/-- The node that comes up is in reach and not the root, and what comes after it in post-order is
    linked already. -/
theorem head (h : Ready g r t (n :: todo)) :
    g.Reaches r n ∧ n ≠ r ∧ ∀ p, [n, p].Sublist (g.postOrder r) → (t.link? p).isSome := by
  obtain ⟨past, hpast, hr, hlink⟩ := h.past
  rw [List.reverse_cons, List.append_assoc, List.singleton_append] at hpast
  have hnd := g.nodup_postOrder r
  rw [hpast] at hnd
  obtain ⟨_, hnd', hdis⟩ := List.nodup_append.1 hnd
  have hnp : n ∉ past := (List.nodup_cons.1 hnd').1
  have hnt : n ∉ todo.reverse := fun hm => hdis n hm n List.mem_cons_self rfl
  refine ⟨Digraph.mem_postOrder.1 (by rw [hpast]; simp), fun e => hnp (e ▸ hr), fun p hsub => ?_⟩
  rw [hpast] at hsub
  have hlt := Digraph.idxOf_lt_of_sublist hnd hsub
  rw [List.idxOf_append_of_notMem hnt, List.idxOf_cons_self] at hlt
  rcases List.mem_append.1 (hsub.subset (List.mem_cons_of_mem n List.mem_cons_self)) with hp | hp
  · rw [List.idxOf_append_of_mem hp] at hlt
    have := List.idxOf_lt_length_iff.2 hp
    omega
  · rcases List.mem_cons.1 hp with rfl | hp
    · rw [List.idxOf_append_of_notMem hnt, List.idxOf_cons_self] at hlt
      exact absurd hlt (lt_irrefl _)
    · exact hlink p hp

theorem exists_linked_predecessor (h : Ready g r t (n :: todo)) :
    ∃ p ∈ g.into n, (t.link? p).isSome := by
  obtain ⟨hn, hne, hlater⟩ := h.head
  obtain ⟨p, harc, hsub⟩ := Digraph.exists_later_predecessor hn hne
  exact ⟨p, Digraph.mem_into.2 harc, hlater p hsub⟩

/-- One node of a pass. -/
theorem step (h : Ready g r t (n :: todo)) :
    ∃ m, t.improve g n = .ok (t.set n m) ∧ Ready g r (t.set n m) todo ∧
      ∀ p, (p, n) ∈ g.arcs → (t.link? p).isSome → t.Above p m := by
  obtain ⟨hn, hne, hlater⟩ := h.head
  obtain ⟨m, hm, hsound, habove⟩ := h.exists_improve hn hne hlater
  obtain ⟨past, hpast, hr, hlink⟩ := h.past
  rw [List.reverse_cons, List.append_assoc, List.singleton_append] at hpast
  refine ⟨m, hm, ⟨hsound, n :: past, hpast, List.mem_cons_of_mem n hr, fun x hx => ?_⟩, habove⟩
  rcases List.mem_cons.1 hx with rfl | hx
  · rw [link?_set_self (h.mem_nodes.2 hn)]
    rfl
  · exact link?_set_isSome (hlink x hx)

end Ready

/-! ### Coming to rest -/

/-- What is above `n` lies on every path to `n` of at most `k` nodes. -/
def Fits (g : Digraph α) (r : α) (t : Table α) (k : Nat) (n : α) : Prop :=
  ∀ w, g.Path r n w → w.length ≤ k → (t.link? n).isSome ∧ ∀ z, t.Above n z → z ∈ w

namespace Fits

theorem mono (h : Fits g r t k' n) (hk : k ≤ k') : Fits g r t k n :=
  fun w hw hle => h w hw (hle.trans hk)

/-- After the change of a link the node fits one arc more than its predecessors did before. -/
theorem set_self (hn : n ∈ t.nodes) (hne : n ≠ r) (hfit : ∀ p, Fits g r t k p)
    (hm : ∀ p, (p, n) ∈ g.arcs → (t.link? p).isSome → t.Above p m) :
    Fits g r (t.set n m) (k + 1) n := by
  intro w hw hle
  refine ⟨by rw [link?_set_self hn]; rfl, fun z hz => ?_⟩
  rcases hw.eq_snoc with ⟨hrn, _⟩ | ⟨p, v, hv, harc, rfl⟩
  · exact absurd hrn.symm hne
  · rw [List.length_append, List.length_singleton] at hle
    obtain ⟨hp, hpv⟩ := hfit p v hv (by omega)
    rcases above_set_self hn hz with rfl | hz
    · exact List.mem_append_right v (List.mem_singleton.2 rfl)
    · exact List.mem_append_left _ (hpv z ((hm p harc hp).trans hz))

/-- A node that fits the paths of one arc more than all nodes do keeps fitting them. Where the changed
    node is above it, it lies on the path, and the part of the path before it is shorter. -/
theorem set (hne : n ≠ r) (hfit : ∀ p, Fits g r t k p)
    (hm : ∀ p, (p, n) ∈ g.arcs → (t.link? p).isSome → t.Above p m) (hk : k' ≤ k + 1)
    (h : Fits g r t k' x) : Fits g r (t.set n m) k' x := by
  intro w hw hle
  obtain ⟨hlink, hon⟩ := h w hw hle
  refine ⟨link?_set_isSome hlink, fun z hz => ?_⟩
  rcases above_set hz with hz | ⟨hxn, hz⟩
  · exact hon z hz
  · obtain ⟨u, q, hu, hq, rfl⟩ := hw.split (hon n hxn)
    rcases hu.eq_snoc with ⟨hrn, _⟩ | ⟨p, v, hv, harc, rfl⟩
    · exact absurd hrn.symm hne
    · rw [List.length_append, List.length_append, List.length_singleton] at hle
      obtain ⟨hp, hpv⟩ := hfit p v hv (by omega)
      have hzv : z ∈ v := hpv z ((hm p harc hp).trans hz)
      exact List.mem_append_left _ (List.mem_append_left _ hzv)

/-- A path has at least one node. -/
theorem zero : Fits g r t 0 n := by
  intro w hw hle
  obtain ⟨q, rfl⟩ := hw.eq_cons
  exact absurd hle (Nat.not_succ_le_zero _)

theorem root (ht : t.Rooted r) : Fits g r t k r := by
  intro w hw _
  refine ⟨by rw [ht.link_root]; rfl, fun z hz => ?_⟩
  rw [hz.eq_root ht rfl]
  exact hw.source_mem

end Fits

/-- A pass, or what is left of one, goes through, and then every node fits one arc more. -/
theorem Ready.exists_pass : ∀ {todo : List α} {t : Table α}, Ready g r t todo →
    (∀ x, Fits g r t k x) → (∀ x, x ∉ todo → Fits g r t (k + 1) x) →
    ∃ t', todo.foldlM (Table.improve g) t = .ok t' ∧ Ready g r t' [] ∧ ∀ x, Fits g r t' (k + 1) x
  | [], t, h, _, hfit' => ⟨t, rfl, h, fun x => hfit' x List.not_mem_nil⟩
  | n :: todo, t, h, hfit, hfit' => by
    obtain ⟨hn, hne, _⟩ := h.head
    obtain ⟨m, hm, hready, hpred⟩ := h.step
    have hfit₁ : ∀ x, Fits g r (t.set n m) k x := fun x => .set hne hfit hpred (Nat.le_succ k) (hfit x)
    have hfit₂ : ∀ x, x ∉ todo → Fits g r (t.set n m) (k + 1) x := by
      intro x hx
      by_cases hxn : x = n
      · rw [hxn]
        exact .set_self (h.mem_nodes.2 hn) hne hfit hpred
      · exact .set hne hfit hpred (le_refl _) (hfit' x (by simp [hxn, hx]))
    obtain ⟨t', ht', hready', hdone⟩ := hready.exists_pass hfit₁ hfit₂
    refine ⟨t', ?_, hready', hdone⟩
    rw [List.foldlM_cons, hm]
    exact ht'

/-- A full pass from a table whose passes so far are finished, or from the first table. -/
theorem Ready.exists_full_pass (h : Ready g r t (passOrder g r)) (hfit : ∀ x, Fits g r t k x) :
    ∃ t', (passOrder g r).foldlM (Table.improve g) t = .ok t' ∧ Ready g r t' [] ∧
      ∀ x, Fits g r t' (k + 1) x := by
  refine h.exists_pass hfit fun x hx w hw hle => ?_
  have hx' : x ∈ g.postOrder r := Digraph.mem_postOrder.2 ⟨w, hw⟩
  rw [exists_postOrder_eq_append, List.mem_append, List.mem_reverse, List.mem_singleton] at hx'
  obtain rfl := hx'.resolve_left hx
  exact Fits.root h.rooted w hw hle

/-- Above each node in reach is exactly what dominates it. -/
def Exact (g : Digraph α) (r : α) (t : Table α) : Prop :=
  ∀ n z, g.Reaches r n → (t.Above n z ↔ g.Dominates r z n)

/-- A path without repetitions has no more nodes than the post-order. -/
theorem length_le_of_nodup {w : List α} (hw : g.Path r n w) (hnd : w.Nodup) :
    w.length ≤ (g.postOrder r).length := by
  refine (hnd.subperm fun x hx => ?_).length_le
  obtain ⟨p, _, hp, _, _⟩ := hw.split hx
  exact Digraph.mem_postOrder.2 ⟨p, hp⟩

theorem Ready.exact (h : Ready g r t []) (hfit : ∀ x, Fits g r t (g.postOrder r).length x) :
    Exact g r t := by
  intro n z hn
  refine ⟨fun hz => ⟨hn, fun w hw => ?_⟩, fun hz => h.above_of_dominates (h.isSome hn) hz⟩
  obtain ⟨v, hv, hnd, hsub⟩ := hw.exists_nodup
  exact hsub ((hfit n v hv (length_le_of_nodup hv hnd)).2 z hz)

/-- In an exact table no strict dominator of a node comes before its link. -/
theorem Exact.eq_or_idxOf_lt (ht : t.Rooted r) (he : Exact g r t) (hl : t.link? n = some l)
    (hd : g.Dominates r d n) (hne : d ≠ n) : d = l ∨ t.nodes.idxOf l < t.nodes.idxOf d := by
  cases (he n d hd.1).2 hd with
  | self => exact absurd rfl hne
  | step hl' hd' =>
    rw [hl] at hl'
    cases hl'
    exact hd'.eq_or_idxOf_lt ht

/-- There is only one exact table. -/
theorem Exact.unique (h : Ready g r t []) (h' : Ready g r t' []) (he : Exact g r t)
    (he' : Exact g r t') : t = t' := by
  have hnodes : t.nodes = t'.nodes := h.nodes_eq.trans h'.nodes_eq.symm
  refine ext_link h.rooted.nodup hnodes fun n hn => ?_
  by_cases hr : n = r
  · rw [hr, h.rooted.link_root, h'.rooted.link_root]
  have hreach : g.Reaches r n := h.mem_nodes.1 hn
  obtain ⟨l, hl⟩ := Option.isSome_iff_exists.1 (h.isSome hreach)
  obtain ⟨l', hl'⟩ := Option.isSome_iff_exists.1 (h'.isSome hreach)
  have hdom : g.Dominates r l n := (he n l hreach).1 (.step hl (.self l))
  have hdom' : g.Dominates r l' n := (he' n l' hreach).1 (.step hl' (.self l'))
  have hne : l ≠ n := fun e => absurd (h.rooted.idxOf_lt hl hr) (e ▸ lt_irrefl _)
  have hne' : l' ≠ n := fun e => absurd (h'.rooted.idxOf_lt hl' hr) (e ▸ lt_irrefl _)
  -- each of the two links would come before the other
  rcases he.eq_or_idxOf_lt h.rooted hl hdom' hne' with rfl | hlt
  · rw [hl, hl']
  rcases he'.eq_or_idxOf_lt h'.rooted hl' hdom hne with rfl | hlt'
  · rw [hl, hl']
  rw [hnodes] at hlt
  exact absurd hlt (not_lt.2 hlt'.le)

/-- Once all nodes fit the longest paths without repetitions, all are linked. -/
theorem Sound.ready (h : Sound g r t) (hfit : ∀ x, Fits g r t (g.postOrder r).length x) :
    Ready g r t [] := by
  refine ⟨h, g.postOrder r, rfl, Digraph.mem_postOrder.2 (.refl r), fun x hx => ?_⟩
  obtain ⟨w, hw⟩ := Digraph.mem_postOrder.1 hx
  obtain ⟨v, hv, hnd, _⟩ := hw.exists_nodup
  exact (hfit x v hv (length_le_of_nodup hv hnd)).1

/-- A table that a pass does not change fits paths of any length. -/
theorem Ready.fits_of_pass_eq (h : Ready g r t (passOrder g r))
    (hpass : (passOrder g r).foldlM (Table.improve g) t = .ok t) : ∀ k x, Fits g r t k x
  | 0, _ => .zero
  | k + 1, x => by
    obtain ⟨t', ht', _, hfit⟩ := h.exists_full_pass (h.fits_of_pass_eq hpass k)
    rw [hpass] at ht'
    cases ht'
    exact hfit x

/-- The passes come to rest at the exact table: with `k` passes done, as many more are enough as the
    post-order is longer than `k`, and one that finds nothing to change. -/
theorem exists_settle : ∀ (budget k : Nat) (t : Table α), Ready g r t (passOrder g r) →
    (∀ x, Fits g r t k x) → 0 < budget → (g.postOrder r).length < budget + k →
    ∃ t', t.settle g (passOrder g r) budget = .ok t' ∧ Ready g r t' [] ∧ Exact g r t'
  | 0, _, _, _, _, hpos, _ => absurd hpos (lt_irrefl 0)
  | budget + 1, k, t, h, hfit, _, hlen => by
    obtain ⟨t', ht', hready', hfit'⟩ := h.exists_full_pass hfit
    rw [Table.settle, ht']
    by_cases heq : t' = t
    · subst heq
      refine ⟨t', if_pos rfl, hready', hready'.exact (h.fits_of_pass_eq ht' _)⟩
    · have hk : k < (g.postOrder r).length := by
        by_contra hk
        have hfull : ∀ x, Fits g r t (g.postOrder r).length x := fun x => (hfit x).mono (not_lt.1 hk)
        have hready : Ready g r t [] := h.toSound.ready hfull
        have hfull' : ∀ x, Fits g r t' (g.postOrder r).length x := fun x =>
          (hfit' x).mono ((not_lt.1 hk).trans (Nat.le_succ k))
        exact heq (Exact.unique hready' hready (hready'.exact hfull') (hready.exact hfull))
      obtain ⟨u, hu, hu'⟩ := exists_settle budget (k + 1) t' hready'.again hfit' (by omega) (by omega)
      exact ⟨u, (if_neg heq).trans hu, hu'⟩

/-! ### The tree -/

/-- The links of a tree, as a table that has them all. -/
def DominatorTree.table (t : DominatorTree α) : Table α := t.links.map fun e => (e.1, some e.2)

/-- A tree of the nodes in reach of `r`, in which the dominators of a node are above it. -/
structure DominatorTree.IsFor (g : Digraph α) (r : α) (t : DominatorTree α) : Prop where
  root_eq : t.root = r
  tour_eq : t.tour = t.graph.tour r
  ready : Ready g r t.table []
  exact : Exact g r t.table

omit [DecidableEq α] in
theorem exists_links : ∀ {t : Table α}, (∀ e ∈ t, e.2.isSome) →
    ∃ links, DominatorTree.links? t = .ok links ∧ t = links.map fun e => (e.1, some e.2)
  | [], _ => ⟨[], rfl, rfl⟩
  | (n, o) :: t, h => by
    obtain ⟨l, rfl⟩ := Option.isSome_iff_exists.1 (h (n, o) List.mem_cons_self)
    obtain ⟨links, hlinks, rfl⟩ := exists_links fun e he => h e (List.mem_cons_of_mem _ he)
    refine ⟨(n, l) :: links, ?_, rfl⟩
    rw [DominatorTree.links?] at hlinks
    rw [DominatorTree.links?, List.mapM_cons, hlinks]
    rfl

/-- The budget of a build is enough. -/
theorem exists_settle_start (g : Digraph α) (r : α) :
    ∃ t, (Table.start r (g.postOrder r)).settle g (passOrder g r)
        ((g.postOrder r).length * (g.postOrder r).length + 1) = .ok t ∧
      Ready g r t [] ∧ Exact g r t := by
  have hpos : 0 < (g.postOrder r).length :=
    List.length_pos_of_mem (Digraph.mem_postOrder.2 (.refl r))
  have hle := Nat.le_mul_of_pos_left (g.postOrder r).length hpos
  exact exists_settle _ 0 _ (Ready.start g r) (fun x => .zero) (Nat.succ_pos _) (by omega)

/-- The tree is built, whatever the graph and the root. -/
theorem exists_build (g : Digraph α) (r : α) :
    ∃ t, DominatorTree.build g r = .ok t ∧ t.IsFor g r := by
  obtain ⟨t, ht, hready, hexact⟩ := exists_settle_start g r
  obtain ⟨links, hlinks, rfl⟩ := exists_links (t := t) fun e he => by
    have hn : e.1 ∈ t.nodes := List.mem_map.2 ⟨e, he, rfl⟩
    have hl := hready.isSome (hready.mem_nodes.1 hn)
    rwa [link?_of_mem hready.rooted.nodup he] at hl
  refine ⟨⟨r, links, (DominatorTree.graphOf r links).tour r⟩, ?_, rfl, rfl, hready, hexact⟩
  rw [passOrder] at ht
  rw [DominatorTree.build, ht]
  show (DominatorTree.links? _ >>= fun links => _) = _
  rw [hlinks]
  rfl

/-! ### Nothing breaks on the way -/

/-- The tables that the iteration goes through, each with the nodes that its pass has still to do. -/
inductive Stage (g : Digraph α) (r : α) : Table α → List α → Prop
  | start : Stage g r (Table.start r (g.postOrder r)) (passOrder g r)
  | node {t t' : Table α} {n : α} {todo : List α} :
      Stage g r t (n :: todo) → t.improve g n = .ok t' → Stage g r t' todo
  | again {t : Table α} : Stage g r t [] → Stage g r t (passOrder g r)

theorem Stage.ready (h : Stage g r t todo) : Ready g r t todo := by
  induction h with
  | start => exact .start g r
  | node _ him ih =>
    obtain ⟨m, hm, hready, _⟩ := ih.step
    rw [hm] at him
    cases him
    exact hready
  | again _ ih => exact ih.again

/-- The iteration from `r` comes to rest within its budget, and nothing that it looks up is missing. -/
structure Settles (g : Digraph α) (r : α) : Prop where
  /-- one pass more than the square of the number of nodes in reach is enough -/
  within : ∃ t, (Table.start r (g.postOrder r)).settle g (passOrder g r)
    ({n | g.Reaches r n}.ncard ^ 2 + 1) = .ok t
  /-- so the tree is built -/
  built : ∃ t, DominatorTree.build g r = .ok t
  /-- a node that comes up has a linked predecessor, and so it gets an estimate -/
  linked : ∀ t n todo, Stage g r t (n :: todo) →
    (∃ p ∈ g.into n, (t.link? p).isSome) ∧ ∃ m, t.estimate g n = .ok m
  /-- two fingers on linked nodes of a table half done find every place and link that they look up,
      meet, and meet at a linked node -/
  meets : ∀ t todo a b, Stage g r t todo → (t.link? a).isSome → (t.link? b).isSome →
    ∃ m, t.Meeting a b m ∧ t.meet? a b = some m ∧ (t.link? m).isSome

theorem ncard_reaches (g : Digraph α) (r : α) :
    {n | g.Reaches r n}.ncard = (g.postOrder r).length := by
  have hset : {n | g.Reaches r n} = ↑(g.postOrder r).toFinset := by
    ext n
    simp
  rw [hset, Set.ncard_coe_finset, List.toFinset_card_of_nodup (g.nodup_postOrder r)]

theorem settles (g : Digraph α) (r : α) : Settles g r where
  within := by
    obtain ⟨t, ht, _⟩ := exists_settle_start g r
    exact ⟨t, by rw [ncard_reaches, sq]; exact ht⟩
  built := by
    obtain ⟨t, ht, _⟩ := exists_build g r
    exact ⟨t, ht⟩
  linked t n todo h := by
    obtain ⟨p, hp, hlink⟩ := h.ready.exists_linked_predecessor
    obtain ⟨m, hm, _⟩ := exists_estimate h.ready.rooted hp hlink
    exact ⟨⟨p, hp, hlink⟩, m, hm⟩
  meets t todo a b h ha hb := by
    obtain ⟨m, hm, hat⟩ := h.ready.rooted.exists_meet ha hb
    exact ⟨m, hat.walk, hm, hat.linked⟩

end ProgDep.Dominance

namespace ProgDep.Flow

open Dominance

/-- In every flow graph the iteration settles both ways: from the entry along the arrows, and from the
    exit against them. -/
theorem links_settle (c : Flow) : Settles c.graph .entry ∧ Settles c.graph.flip .exit :=
  ⟨settles _ _, settles _ _⟩

end ProgDep.Flow
