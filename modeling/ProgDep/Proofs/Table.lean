import Mathlib.Data.List.Nodup
import ProgDep.Dominance

/-! Tables of links as partly built trees. In a rooted table each link leads to a node further on that is
    linked itself, so following links from a linked node always ends at the root, and the nodes on the
    way are above it. Two fingers that follow the links from linked nodes meet, and above the place where
    they meet is what is above both. -/

namespace ProgDep.Dominance.Table

variable {α : Type} [DecidableEq α] {t : Table α} {a b l m n r x y z : α} {o : Option α}

/-- The nodes of a table, in its order. -/
def nodes (t : Table α) : List α := t.map (·.1)

/-- The place of a node in the table. -/
def rank? (t : Table α) (n : α) : Option Nat := t.findIdx? (·.1 = n)

/-- A table whose links lead forward to linked nodes; the root is last and is linked to itself. -/
inductive Rooted (r : α) : Table α → Prop
  | root : Rooted r [(r, some r)]
  | cons {n : α} {o : Option α} {t : Table α} : n ∉ t.nodes → (∀ l, o = some l → (t.link? l).isSome) →
      Rooted r t → Rooted r ((n, o) :: t)

/-- `z` is on the way up from `a` along the links. -/
inductive Above (t : Table α) : α → α → Prop
  | self (a : α) : Above t a a
  | step {a l z : α} : t.link? a = some l → Above t l z → Above t a z

/-- Two fingers walk up until they meet at `m`: as long as they differ, the one on the node that comes
    first in the table moves on to the link of that node. -/
inductive Meeting (t : Table α) : α → α → α → Prop
  | met (a : α) : Meeting t a a a
  | left {a b l m : α} {i j : Nat} : t.rank? a = some i → t.rank? b = some j → i < j →
      t.link? a = some l → Meeting t l b m → Meeting t a b m
  | right {a b l m : α} {i j : Nat} : t.rank? a = some i → t.rank? b = some j → j < i →
      t.link? b = some l → Meeting t a l m → Meeting t a b m

/-! ### Links and places -/

omit [DecidableEq α] in
@[simp]
theorem nodes_cons (e : α × Option α) (t : Table α) : nodes (e :: t) = e.1 :: t.nodes := rfl

theorem link?_cons (n : α) (o : Option α) (t : Table α) (a : α) :
    link? ((n, o) :: t) a = if n = a then o else t.link? a := by
  by_cases h : n = a <;> simp [link?, h]

@[simp]
theorem link?_cons_self (n : α) (o : Option α) (t : Table α) : link? ((n, o) :: t) n = o := by
  rw [link?_cons, if_pos rfl]

theorem link?_cons_ne (h : n ≠ a) : link? ((n, o) :: t) a = t.link? a := by
  rw [link?_cons, if_neg h]

theorem rank?_cons_self (n : α) (o : Option α) (t : Table α) : rank? ((n, o) :: t) n = some 0 := by
  simp [rank?, List.findIdx?_cons]

theorem rank?_cons_ne (h : n ≠ a) : rank? ((n, o) :: t) a = (t.rank? a).map (· + 1) := by
  simp [rank?, List.findIdx?_cons, h]

theorem mem_of_link (h : t.link? a = some l) : (a, some l) ∈ t := by
  rw [link?, Option.bind_eq_some_iff] at h
  obtain ⟨⟨k, o⟩, he, rfl⟩ := h
  have hk : k = a := by simpa using List.find?_some he
  exact hk ▸ List.mem_of_find?_eq_some he

theorem mem_nodes_of_link (h : t.link? a = some l) : a ∈ t.nodes :=
  List.mem_map.2 ⟨_, mem_of_link h, rfl⟩

theorem mem_nodes_of_isSome (h : (t.link? a).isSome) : a ∈ t.nodes := by
  obtain ⟨l, hl⟩ := Option.isSome_iff_exists.1 h
  exact mem_nodes_of_link hl

theorem ne_of_isSome (hn : n ∉ t.nodes) (h : (t.link? a).isSome) : n ≠ a := by
  rintro rfl
  exact hn (mem_nodes_of_isSome h)

/-- A node in front leaves the linked nodes behind it as they are. -/
theorem link?_cons_of_isSome (hn : n ∉ t.nodes) (h : (t.link? a).isSome) :
    link? ((n, o) :: t) a = t.link? a := link?_cons_ne (ne_of_isSome hn h)

/-- A table without repetitions is given by its nodes and their links. -/
theorem ext_link : ∀ {t t' : Table α}, t.nodes.Nodup → t.nodes = t'.nodes →
    (∀ n ∈ t.nodes, t.link? n = t'.link? n) → t = t'
  | [], [], _, _, _ => rfl
  | [], _ :: _, _, h, _ => by cases h
  | _ :: _, [], _, h, _ => by cases h
  | (n, o) :: t, (n', o') :: t', hnd, h, hl => by
    rw [nodes_cons, nodes_cons, List.cons.injEq] at h
    rw [nodes_cons, List.nodup_cons] at hnd
    obtain ⟨hn : n = n', h⟩ := h
    subst hn
    have ho := hl n List.mem_cons_self
    rw [link?_cons_self, link?_cons_self] at ho
    have htail : t = t' := by
      refine ext_link hnd.2 h fun m hm => ?_
      have hnm : n ≠ m := fun e => hnd.1 (e ▸ hm)
      have := hl m (List.mem_cons_of_mem n hm)
      rwa [link?_cons_ne hnm, link?_cons_ne hnm] at this
    rw [ho, htail]

theorem link?_of_mem : ∀ {t : Table α}, t.nodes.Nodup → (n, o) ∈ t → t.link? n = o
  | (k, o') :: t, hnd, h => by
    rw [nodes_cons, List.nodup_cons] at hnd
    rcases List.mem_cons.1 h with h | h
    · cases h
      exact link?_cons_self n o t
    · have hkn : k ≠ n := fun e => hnd.1 (e ▸ List.mem_map.2 ⟨_, h, rfl⟩)
      rw [link?_cons_ne hkn]
      exact link?_of_mem hnd.2 h

theorem mem_nodes_of_rank {i : Nat} (h : t.rank? a = some i) : a ∈ t.nodes := by
  rw [rank?, List.findIdx?_eq_some_iff_getElem] at h
  obtain ⟨hi, ha, _⟩ := h
  exact List.mem_map.2 ⟨_, List.getElem_mem hi, by simpa using ha⟩

theorem exists_rank (h : a ∈ t.nodes) : ∃ i, t.rank? a = some i := by
  obtain ⟨e, he, rfl⟩ := List.mem_map.1 h
  refine Option.isSome_iff_exists.1 ?_
  rw [rank?, List.findIdx?_isSome, List.any_eq_true]
  exact ⟨e, he, by simp⟩

/-! ### Rooted tables -/

namespace Rooted

theorem of_cons (h : Rooted r ((n, o) :: t)) :
    (n = r ∧ o = some r ∧ t = []) ∨
      (n ∉ t.nodes ∧ (∀ l, o = some l → (t.link? l).isSome) ∧ Rooted r t) := by
  cases h with
  | root => exact Or.inl ⟨rfl, rfl, rfl⟩
  | cons hn ho ht => exact Or.inr ⟨hn, ho, ht⟩

theorem nodup (h : Rooted r t) : t.nodes.Nodup := by
  induction h with
  | root => exact List.nodup_singleton r
  | cons hn _ _ ih => exact List.nodup_cons.2 ⟨hn, ih⟩

theorem link_root (h : Rooted r t) : t.link? r = some r := by
  induction h with
  | root => exact link?_cons_self r (some r) []
  | cons hn _ _ ih => rwa [link?_cons_of_isSome hn (Option.isSome_of_eq_some ih)]

/-- A link leads to a linked node. -/
theorem link_isSome (h : Rooted r t) (hl : t.link? a = some l) : (t.link? l).isSome := by
  induction h with
  | root =>
    rw [link?_cons] at hl
    split at hl
    · cases hl; rw [link?_cons_self]; rfl
    · cases hl
  | @cons n o t hn ho _ ih =>
    have hl' : (t.link? l).isSome := by
      rw [link?_cons] at hl
      split at hl
      · exact ho l hl
      · exact ih hl
    rwa [link?_cons_of_isSome hn hl']

/-- A link leads forward, the root's apart. -/
theorem idxOf_lt (h : Rooted r t) (hl : t.link? a = some l) (ha : a ≠ r) :
    t.nodes.idxOf a < t.nodes.idxOf l := by
  induction h with
  | root =>
    rw [link?_cons, if_neg (Ne.symm ha)] at hl
    cases hl
  | @cons n o t hn ho ht ih =>
    rw [link?_cons] at hl
    split at hl
    · rename_i hna
      rw [nodes_cons, hna, List.idxOf_cons_self, List.idxOf_cons_ne _ (hna ▸ ne_of_isSome hn (ho l hl))]
      exact Nat.succ_pos _
    · rename_i hna
      have hnl : n ≠ l := ne_of_isSome hn (ht.link_isSome hl)
      rw [nodes_cons, List.idxOf_cons_ne _ hna, List.idxOf_cons_ne _ hnl]
      exact Nat.succ_lt_succ (ih hl)

/-- What holds of the root and passes down every link holds of every linked node. -/
theorem climb {P : α → Prop} (h : Rooted r t) (root : P r)
    (step : ∀ a l, t.link? a = some l → a ≠ r → P l → P a) (ha : (t.link? a).isSome) : P a := by
  induction h generalizing a with
  | root =>
    obtain rfl := List.mem_singleton.1 (mem_nodes_of_isSome ha)
    exact root
  | @cons n o t hn ho ht ih =>
    have rest : ∀ b, (t.link? b).isSome → P b := by
      refine fun b => ih fun c k hk hc => step c k ?_ hc
      rwa [link?_cons_of_isSome hn (Option.isSome_of_eq_some hk)]
    rw [link?_cons] at ha
    split at ha
    · rename_i hna
      obtain ⟨l, hl⟩ := Option.isSome_iff_exists.1 ha
      have hnr : n ≠ r := ne_of_isSome hn (Option.isSome_of_eq_some ht.link_root)
      exact hna ▸ step n l (by rw [link?_cons_self, hl]) hnr (rest l (ho l hl))
    · exact rest a ha

end Rooted

/-! ### The way up -/

namespace Above

theorem trans (h : t.Above a b) (h' : t.Above b z) : t.Above a z := by
  induction h with
  | self => exact h'
  | step hl _ ih => exact .step hl (ih h')

theorem isSome (ht : Rooted r t) (h : t.Above a z) (ha : (t.link? a).isSome) :
    (t.link? z).isSome := by
  induction h with
  | self => exact ha
  | step hl _ ih => exact ih (ht.link_isSome hl)

/-- Nothing but the root is above the root. -/
theorem eq_root (ht : Rooted r t) (h : t.Above a z) (ha : a = r) : z = r := by
  induction h with
  | self => exact ha
  | step hl _ ih =>
    rw [ha, ht.link_root] at hl
    cases hl
    exact ih rfl

/-- What is above a node comes later in the table. -/
theorem eq_or_idxOf_lt (ht : Rooted r t) (h : t.Above a z) :
    z = a ∨ t.nodes.idxOf a < t.nodes.idxOf z := by
  induction h with
  | self => exact Or.inl rfl
  | @step a l z hl hz ih =>
    by_cases ha : a = r
    · rw [ha, ht.link_root] at hl
      cases hl
      exact Or.inl (by rw [ha]; exact eq_root ht hz rfl)
    · have hlt := ht.idxOf_lt hl ha
      rcases ih with rfl | ih
      · exact Or.inr hlt
      · exact Or.inr (Nat.lt_trans hlt ih)

/-- One more node in front changes nothing above the linked nodes behind it. -/
theorem cons_iff (ht : Rooted r t) (hn : n ∉ t.nodes) (ha : (t.link? a).isSome) :
    Above ((n, o) :: t) a z ↔ t.Above a z := by
  constructor
  · intro h
    induction h with
    | self a => exact .self a
    | step hl _ ih =>
      rw [link?_cons_of_isSome hn ha] at hl
      exact .step hl (ih (ht.link_isSome hl))
  · intro h
    induction h with
    | self a => exact .self a
    | step hl _ ih =>
      refine .step ?_ (ih (ht.link_isSome hl))
      rwa [link?_cons_of_isSome hn ha]

end Above

/-! ### Meeting -/

theorem Meeting.cons (hn : n ∉ t.nodes) (h : t.Meeting a b m) : Meeting ((n, o) :: t) a b m := by
  have hne : ∀ {c i}, t.rank? c = some i → n ≠ c := fun hc e => hn (e ▸ mem_nodes_of_rank hc)
  have hrank : ∀ {c i}, t.rank? c = some i → rank? ((n, o) :: t) c = some (i + 1) := by
    intro c i hc
    rw [rank?_cons_ne (hne hc), hc]; rfl
  induction h with
  | met a => exact .met a
  | left hi hj hlt hl _ ih =>
    refine .left (hrank hi) (hrank hj) (Nat.succ_lt_succ hlt) ?_ ih
    rwa [link?_cons_ne (hne hi)]
  | right hi hj hlt hl _ ih =>
    refine .right (hrank hi) (hrank hj) (Nat.succ_lt_succ hlt) ?_ ih
    rwa [link?_cons_ne (hne hj)]

theorem Meeting.symm (h : t.Meeting a b m) : t.Meeting b a m := by
  induction h with
  | met a => exact .met a
  | left hi hj hlt hl _ ih => exact .right hj hi hlt hl ih
  | right hi hj hlt hl _ ih => exact .left hj hi hlt hl ih

/-- Where two fingers meet: at a linked node, above which is what is above both. -/
structure MeetAt (t : Table α) (a b m : α) : Prop where
  walk : t.Meeting a b m
  linked : (t.link? m).isSome
  above : ∀ z, t.Above m z ↔ t.Above a z ∧ t.Above b z

namespace MeetAt

theorem symm (h : t.MeetAt a b m) : t.MeetAt b a m :=
  ⟨h.walk.symm, h.linked, fun z => (h.above z).trans and_comm⟩

theorem self (h : (t.link? a).isSome) : t.MeetAt a a a := ⟨.met a, h, fun _ => and_self_iff.symm⟩

theorem cons (ht : Rooted r t) (hn : n ∉ t.nodes) (ha : (t.link? a).isSome)
    (hb : (t.link? b).isSome) (h : t.MeetAt a b m) : MeetAt ((n, o) :: t) a b m := by
  refine ⟨h.walk.cons hn, by rw [link?_cons_of_isSome hn h.linked]; exact h.linked, fun z => ?_⟩
  rw [Above.cons_iff ht hn h.linked, Above.cons_iff ht hn ha, Above.cons_iff ht hn hb]
  exact h.above z

/-- A finger on the first node moves on to the link of that node. -/
theorem first (ht : Rooted r t) (hn : n ∉ t.nodes) (hl : (t.link? l).isSome)
    (hb : (t.link? b).isSome) (h : t.MeetAt l b m) : MeetAt ((n, some l) :: t) n b m := by
  have h' : MeetAt ((n, some l) :: t) l b m := h.cons ht hn hl hb
  have hnb : n ≠ b := ne_of_isSome hn hb
  refine ⟨?_, h'.linked, fun z => ?_⟩
  · obtain ⟨j, hj⟩ := exists_rank (mem_nodes_of_isSome hb)
    have hj' : rank? ((n, some l) :: t) b = some (j + 1) := by rw [rank?_cons_ne hnb, hj]; rfl
    exact .left (rank?_cons_self n _ t) hj' (Nat.succ_pos j) (link?_cons_self n _ t) h'.walk
  · rw [h'.above]
    refine and_congr_left fun hz => ⟨fun h => .step (link?_cons_self n _ t) h, fun h => ?_⟩
    cases h with
    | self =>
      -- the first node is not above any node behind it
      rw [Above.cons_iff ht hn hb] at hz
      exact absurd rfl (ne_of_isSome hn (hz.isSome ht hb))
    | step hk h =>
      rw [link?_cons_self] at hk
      cases hk
      exact h

end MeetAt

/-- Two fingers on linked nodes meet. -/
theorem Rooted.exists_meet (h : Rooted r t) (ha : (t.link? a).isSome) (hb : (t.link? b).isSome) :
    ∃ m, t.meet? a b = some m ∧ t.MeetAt a b m := by
  induction h generalizing a b with
  | root =>
    obtain rfl := List.mem_singleton.1 (mem_nodes_of_isSome ha)
    obtain rfl := List.mem_singleton.1 (mem_nodes_of_isSome hb)
    exact ⟨b, by simp [meet?], .self hb⟩
  | @cons n o t hn ho ht ih =>
    by_cases hna : a = n <;> by_cases hnb : b = n
    · rw [hna] at ha
      rw [hna, hnb]
      exact ⟨n, by simp [meet?], .self ha⟩
    · rw [hna, link?_cons_self] at ha
      obtain ⟨l, rfl⟩ := Option.isSome_iff_exists.1 ha
      rw [link?_cons_ne (Ne.symm hnb)] at hb
      obtain ⟨m, hm, hat⟩ := ih (ho l rfl) hb
      rw [hna]
      exact ⟨m, by rw [meet?, if_pos rfl, if_neg hnb]; exact hm, hat.first ht hn (ho l rfl) hb⟩
    · rw [hnb, link?_cons_self] at hb
      obtain ⟨l, rfl⟩ := Option.isSome_iff_exists.1 hb
      rw [link?_cons_ne (Ne.symm hna)] at ha
      obtain ⟨m, hm, hat⟩ := ih ha (ho l rfl)
      rw [hnb]
      exact ⟨m, by rw [meet?, if_neg hna, if_pos rfl]; exact hm,
        (hat.symm.first ht hn (ho l rfl) ha).symm⟩
    · rw [link?_cons_ne (Ne.symm hna)] at ha
      rw [link?_cons_ne (Ne.symm hnb)] at hb
      obtain ⟨m, hm, hat⟩ := ih ha hb
      exact ⟨m, by rw [meet?, if_neg hna, if_neg hnb, hm], hat.cons ht hn ha hb⟩

/-! ### Changing a link -/

theorem set_cons (k : α) (o : Option α) (t : Table α) (n l : α) :
    set ((k, o) :: t) n l = (if k = n then (n, some l) else (k, o)) :: t.set n l := rfl

@[simp]
theorem nodes_set (t : Table α) (n l : α) : (t.set n l).nodes = t.nodes := by
  induction t with
  | nil => rfl
  | cons e t ih =>
    obtain ⟨k, o⟩ := e
    rw [set_cons, nodes_cons, nodes_cons, ih]
    split
    · rename_i h; rw [h]
    · rfl

theorem set_of_not_mem (h : n ∉ t.nodes) : t.set n l = t := by
  induction t with
  | nil => rfl
  | cons e t ih =>
    obtain ⟨k, o⟩ := e
    rw [nodes_cons, List.mem_cons, not_or] at h
    rw [set_cons, if_neg (Ne.symm h.1), ih h.2]

theorem link?_set_ne (h : a ≠ n) : (t.set n l).link? a = t.link? a := by
  induction t with
  | nil => rfl
  | cons e t ih =>
    obtain ⟨k, o⟩ := e
    rw [set_cons]
    split
    · rename_i hk
      rw [link?_cons_ne (Ne.symm h), link?_cons_ne (hk ▸ Ne.symm h), ih]
    · rw [link?_cons, link?_cons, ih]

theorem link?_set_self (h : n ∈ t.nodes) : (t.set n l).link? n = some l := by
  induction t with
  | nil => exact absurd h List.not_mem_nil
  | cons e t ih =>
    obtain ⟨k, o⟩ := e
    rw [set_cons]
    split
    · exact link?_cons_self n (some l) _
    · rename_i hk
      rw [link?_cons_ne hk]
      exact ih ((List.mem_cons.1 h).resolve_left (Ne.symm hk))

theorem link?_set_isSome (h : (t.link? a).isSome) : ((t.set n l).link? a).isSome := by
  by_cases ha : a = n
  · rw [ha, link?_set_self (ha ▸ mem_nodes_of_isSome h)]; rfl
  · rwa [link?_set_ne ha]

/-- A link to a linked node further on keeps the table rooted. -/
theorem Rooted.set (h : Rooted r t) (hn : n ∈ t.nodes) (hne : n ≠ r) (hl : (t.link? l).isSome)
    (hlt : t.nodes.idxOf n < t.nodes.idxOf l) : Rooted r (t.set n l) := by
  induction h with
  | root => exact absurd (List.mem_singleton.1 hn) hne
  | @cons k o t hk ho ht ih =>
    rw [set_cons]
    have hkl : k ≠ l := by
      rintro rfl
      rw [nodes_cons, List.idxOf_cons_self] at hlt
      exact absurd hlt (Nat.not_lt_zero _)
    rw [link?_cons_ne hkl] at hl
    by_cases hkn : k = n
    · rw [if_pos hkn, set_of_not_mem (hkn ▸ hk), ← hkn]
      exact .cons hk (fun l' e => Option.some.inj e ▸ hl) ht
    · rw [if_neg hkn]
      rw [nodes_cons, List.idxOf_cons_ne _ hkn, List.idxOf_cons_ne _ hkl] at hlt
      refine .cons (by rwa [nodes_set]) (fun l' e => link?_set_isSome (ho l' e)) ?_
      exact ih ((List.mem_cons.1 hn).resolve_left (Ne.symm hkn)) hl (Nat.lt_of_succ_lt_succ hlt)

/-- What is above a node after a change was above it before, or is above the new link of a node that was
    above it. -/
theorem above_set (h : (t.set x m).Above y z) : t.Above y z ∨ (t.Above y x ∧ t.Above m z) := by
  induction h with
  | self y => exact Or.inl (.self y)
  | @step y l z hl _ ih =>
    by_cases hy : y = x
    · have hx : x ∈ t.nodes := by
        have := mem_nodes_of_link hl
        rwa [nodes_set, hy] at this
      rw [hy, link?_set_self hx] at hl
      cases hl
      exact Or.inr ⟨hy ▸ .self y, ih.elim id And.right⟩
    · rw [link?_set_ne hy] at hl
      rcases ih with ih | ⟨ih, ih'⟩
      · exact Or.inl (.step hl ih)
      · exact Or.inr ⟨.step hl ih, ih'⟩

/-- Above the node whose link was changed is now what is above the new link. -/
theorem above_set_self (hx : x ∈ t.nodes) (h : (t.set x m).Above x z) : z = x ∨ t.Above m z := by
  cases h with
  | self => exact Or.inl rfl
  | step hl h =>
    rw [link?_set_self hx] at hl
    cases hl
    exact Or.inr ((above_set h).elim id And.right)

end ProgDep.Dominance.Table
