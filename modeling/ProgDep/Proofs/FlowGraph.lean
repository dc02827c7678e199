import Mathlib
import ProgDep.Flow
import ProgDep.Proofs.Fallible
import ProgDep.Proofs.Path

/-! The arcs of the flow graph of a function: the entry leads to the first block, a block whose terminator
    returns or traps leads to the exit and nowhere else, and every other block leads to blocks only. So
    nothing leads to the entry, and a choice is always one between blocks. -/

namespace ProgDep

/-- Looking for a key finds the item that has it, if no two items have the same key. -/
theorem find?_eq_some_of_nodup {α κ : Type} [DecidableEq κ] {key : α → κ} {xs : List α} {x : α} {k : κ}
    (hnd : (xs.map key).Nodup) : xs.find? (fun y => key y = k) = some x ↔ x ∈ xs ∧ key x = k := by
  constructor
  · intro h
    exact ⟨List.mem_of_find?_eq_some h, by simpa using List.find?_some h⟩
  · rintro ⟨hx, rfl⟩
    cases hf : xs.find? (fun y => key y = key x) with
    | none => exact absurd (List.find?_eq_none.1 hf x hx) (by simp)
    | some y =>
      have hkey : key y = key x := by simpa using List.find?_some hf
      rw [List.inj_on_of_nodup_map hnd (List.mem_of_find?_eq_some hf) hx hkey]

theorem Function.id_nodup (f : Function) : (f.blocks.map Block.id).Nodup := by
  have h := f.labels_nodup
  have hlabel : f.blocks.map Block.label = (f.blocks.map Block.id).map BlockId.label := by
    rw [List.map_map]
    rfl
  rw [hlabel] at h
  exact h.of_map

theorem Function.block?_eq_some_iff {f : Function} {b : Block} {l : Label} :
    f.block? l.name = some b ↔ b ∈ f.blocks ∧ b.label = l := by
  have hname : ∀ {l' : Label}, l'.name = l.name ↔ l' = l :=
    fun {l'} => ⟨fun h => by rwa [Label.mk.injEq], congrArg Label.name⟩
  simp only [block?, hname]
  exact find?_eq_some_of_nodup f.labels_nodup

theorem Function.block?_eq_none_iff {f : Function} {l : Label} :
    f.block? l.name = none ↔ l ∉ f.blocks.map Block.label := by
  rw [Option.eq_none_iff_forall_ne_some, List.mem_map, not_exists]
  exact forall_congr' fun b => not_congr block?_eq_some_iff

namespace Flow

variable {f : Function} {c : Flow} {b : BlockId} {u v v' : Node} {w : List Node}

/-- Whether control leaves the function through this terminator. -/
def leaves (t : Instruction) : Bool := t.isReturn || t.isTrap

/-- What a flow graph is made of: the arrow from the entry, and the arrows of the terminators. -/
theorem build_eq_ok (h : build f = .ok c) : c.blocks = f.blocks ∧ ∃ first ∈ f.blocks, ∀ a,
    a ∈ c.arrows ↔ a = ⟨.entry, .block first.id, none⟩ ∨ ∃ b ∈ f.blocks, ∃ t as,
      terminator f.name b = .ok t ∧ blockArrows f b t = .ok as ∧ a ∈ as := by
  rw [build] at h
  split at h
  · cases h
  · rename_i first rest hblocks
    obtain ⟨ends, hends, h⟩ := bind_eq_ok_iff.1 h
    obtain ⟨arrows, harrows, h⟩ := bind_eq_ok_iff.1 h
    cases h
    refine ⟨rfl, first, by rw [hblocks]; exact List.mem_cons_self, fun a => ?_⟩
    rw [List.mem_cons, List.mem_flatten]
    refine or_congr_right ⟨?_, ?_⟩
    · rintro ⟨as, has, ha⟩
      obtain ⟨⟨b, t⟩, he, hbt⟩ := (mem_of_mapM_eq_ok harrows).1 has
      obtain ⟨b', hb', hmap⟩ := (mem_of_mapM_eq_ok hends).1 he
      cases ht : terminator f.name b' with
      | error e => rw [ht] at hmap; cases hmap
      | ok t' =>
        rw [ht] at hmap
        cases hmap
        exact ⟨b, hb', t, as, ht, hbt, ha⟩
    · rintro ⟨b, hb, t, as, ht, hbt, ha⟩
      have he : (b, t) ∈ ends := (mem_of_mapM_eq_ok hends).2 ⟨b, hb, by rw [ht]; rfl⟩
      exact ⟨as, (mem_of_mapM_eq_ok harrows).2 ⟨(b, t), he, hbt⟩, ha⟩

/-- The arrows that leave a block that ends in its only terminator. -/
def Leads (f : Function) (b : Block) (as : List Arrow) : Prop :=
  ∃ t, terminator f.name b = .ok t ∧ blockArrows f b t = .ok as

theorem mapM_leads_iff {bs : List Block} {arrows : List (List Arrow)} :
    (bs.mapM (fun b => (terminator f.name b).map fun t => (b, t)) >>= fun ends =>
        ends.mapM fun p => blockArrows f p.1 p.2) = .ok arrows ↔
      List.Forall₂ (Leads f) bs arrows := by
  rw [bind_eq_ok_iff]
  simp only [mapM_eq_ok_iff]
  constructor
  · rintro ⟨ends, hends, harrows⟩
    induction hends generalizing arrows with
    | nil =>
      cases harrows
      exact .nil
    | cons he _ ih =>
      obtain ⟨t, ht, rfl⟩ := map_eq_ok_iff.1 he
      cases harrows with
      | cons has harrows => exact .cons ⟨t, ht, has⟩ (ih harrows)
  · intro h
    induction h with
    | nil => exact ⟨[], .nil, .nil⟩
    | @cons b as bs arrows hb _ ih =>
      obtain ⟨t, ht, has⟩ := hb
      obtain ⟨ends, hends, harrows⟩ := ih
      exact ⟨(b, t) :: ends, .cons (map_eq_ok_iff.2 ⟨t, ht, rfl⟩) hends, .cons has harrows⟩

/-- What a flow graph is built from, in order. -/
theorem build_eq_ok_iff : build f = .ok c ↔ ∃ first rest arrows, f.blocks = first :: rest ∧
    List.Forall₂ (Leads f) f.blocks arrows ∧
    c = ⟨f.blocks, ⟨.entry, .block first.id, none⟩ :: arrows.flatten⟩ := by
  rw [build]
  split
  · rename_i hnil
    constructor
    · intro h
      cases h
    · rintro ⟨first, rest, arrows, h, _⟩
      cases hnil.symm.trans h
  · rename_i first rest hblocks
    rw [← bind_assoc, bind_eq_ok_iff]
    simp only [mapM_leads_iff]
    constructor
    · rintro ⟨arrows, harrows, h⟩
      exact ⟨first, rest, arrows, hblocks, harrows, (Except.ok.inj h).symm⟩
    · rintro ⟨first', rest', arrows, hblocks', harrows, rfl⟩
      cases hblocks.symm.trans hblocks'
      exact ⟨arrows, harrows, rfl⟩

theorem exists_leads {b : Block} (h : build f = .ok c) (hb : b ∈ f.blocks) : ∃ as, Leads f b as := by
  obtain ⟨_, _, _, _, harrows, _⟩ := build_eq_ok_iff.1 h
  obtain ⟨as, _, has⟩ := exists_of_forall₂ harrows hb
  exact ⟨as, has⟩

theorem id_nodup (h : build f = .ok c) : (c.blocks.map Block.id).Nodup := by
  rw [(build_eq_ok h).1]
  exact f.id_nodup

theorem block?_eq_some {b : Block} {id : BlockId} (h : build f = .ok c) :
    c.block? id = some b ↔ b ∈ c.blocks ∧ b.id = id :=
  find?_eq_some_of_nodup (id_nodup h)

/-- A terminator that leaves the function has one arrow, to the exit; any other has arrows to blocks. -/
theorem mem_blockArrows {b : Block} {t : Instruction} {as : List Arrow} {a : Arrow}
    (h : blockArrows f b t = .ok as) (ha : a ∈ as) : a.source = .block b.id ∧
      ((leaves t = true ∧ a.target = .exit) ∨
        (leaves t = false ∧ ∃ b' ∈ f.blocks, a.target = .block b'.id)) := by
  rw [blockArrows, ← leaves] at h
  split at h
  · rename_i hleaves
    cases h
    rw [List.mem_singleton.1 ha]
    exact ⟨rfl, Or.inl ⟨hleaves, rfl⟩⟩
  · rename_i hleaves
    obtain ⟨o, _, ho⟩ := (mem_of_mapM_eq_ok h).1 ha
    cases o with
    | error fault => cases ho
    | ok o =>
      rw [outcomeArrow] at ho
      split at ho
      · rename_i b' hb'
        cases ho
        exact ⟨rfl, Or.inr ⟨by simpa using hleaves, b', List.mem_of_find?_eq_some hb', rfl⟩⟩
      · cases ho

theorem mem_arcs {c : Flow} : (u, v) ∈ c.graph.arcs ↔ ∃ a ∈ c.arrows, a.source = u ∧ a.target = v := by
  simp [graph]

/-- Where an arc leads from the entry or from a block. -/
theorem arc_cases (h : build f = .ok c) (harc : (u, v) ∈ c.graph.arcs) :
    (u = .entry ∧ ∃ b ∈ f.blocks, v = .block b.id) ∨
      ∃ b ∈ f.blocks, ∃ t, terminator f.name b = .ok t ∧ u = .block b.id ∧
        ((leaves t = true ∧ v = .exit) ∨ (leaves t = false ∧ ∃ b' ∈ f.blocks, v = .block b'.id)) := by
  obtain ⟨_, first, hfirst, hmem⟩ := build_eq_ok h
  obtain ⟨a, ha, rfl, rfl⟩ := mem_arcs.1 harc
  rcases (hmem a).1 ha with rfl | ⟨b, hb, t, as, ht, hbt, has⟩
  · exact Or.inl ⟨rfl, first, hfirst, rfl⟩
  · obtain ⟨hsource, htarget⟩ := mem_blockArrows hbt has
    exact Or.inr ⟨b, hb, t, ht, hsource, htarget⟩

theorem not_arc_entry (h : build f = .ok c) : (u, .entry) ∉ c.graph.arcs := by
  intro harc
  rcases arc_cases h harc with ⟨_, _, _, hv⟩ | ⟨_, _, _, _, _, ⟨_, hv⟩ | ⟨_, _, _, hv⟩⟩ <;> cases hv

/-- A block that leads to the exit leads nowhere else. -/
theorem eq_exit_of_arc (h : build f = .ok c) (hexit : (u, .exit) ∈ c.graph.arcs)
    (harc : (u, v) ∈ c.graph.arcs) : v = .exit := by
  rcases arc_cases h hexit with ⟨_, _, _, hv⟩ | ⟨b, hb, t, ht, rfl, hv⟩
  · cases hv
  rcases arc_cases h harc with ⟨hu, _⟩ | ⟨b', hb', t', ht', hid, hv'⟩
  · cases hu
  -- the two arcs come from one block, so from one terminator
  obtain rfl : b = b' := List.inj_on_of_nodup_map f.id_nodup hb hb' (Node.block.inj hid)
  rw [ht] at ht'
  cases ht'
  rcases hv with ⟨hleaves, _⟩ | ⟨_, _, _, hv⟩
  · rcases hv' with ⟨_, hv'⟩ | ⟨hstays, _⟩
    · exact hv'
    · rw [hleaves] at hstays
      cases hstays
  · cases hv

/-- Where there is a choice, it is between blocks. -/
theorem exists_block_of_arc (h : build f = .ok c) (hv : (u, v) ∈ c.graph.arcs)
    (hv' : (u, v') ∈ c.graph.arcs) (hne : v ≠ v') : ∃ b, v = .block b := by
  cases v with
  | block b => exact ⟨b, rfl⟩
  | entry => exact absurd hv (not_arc_entry h)
  | exit => exact absurd (eq_exit_of_arc h hv hv').symm hne

/-- The flow graph has no blocks but those of the function. -/
theorem mem_blocks_of_arc (h : build f = .ok c) (harc : (u, .block b) ∈ c.graph.arcs) :
    b ∈ c.blocks.map Block.id := by
  rw [(build_eq_ok h).1]
  rcases arc_cases h harc with ⟨_, b', hb', hv⟩ | ⟨_, _, _, _, _, ⟨_, hv⟩ | ⟨_, b', hb', hv⟩⟩
  · exact List.mem_map.2 ⟨b', hb', (Node.block.inj hv).symm⟩
  · cases hv
  · exact List.mem_map.2 ⟨b', hb', (Node.block.inj hv).symm⟩

theorem mem_blocks_of_reaches (h : build f = .ok c) (harc : (u, v) ∈ c.graph.arcs)
    (hv : c.graph.Reaches v (.block b)) : b ∈ c.blocks.map Block.id := by
  obtain ⟨w, hw⟩ := hv
  rcases hw.eq_snoc with ⟨rfl, _⟩ | ⟨x, _, _, hx, _⟩
  · exact mem_blocks_of_arc h harc
  · exact mem_blocks_of_arc h hx

/-- A path comes to the entry only by starting there. -/
theorem source_eq_entry (h : build f = .ok c) (hp : c.graph.Path u v w) (hw : .entry ∈ w) :
    u = .entry := by
  induction hp with
  | single u => exact (List.mem_singleton.1 hw).symm
  | @cons u x v w harc _ ih =>
    rcases List.mem_cons.1 hw with he | hw
    · exact he.symm
    · rw [ih hw] at harc
      exact absurd harc (not_arc_entry h)

end Flow

/-! ### A function that may not end

A branch goes to a loop that writes to storage and ends sometime, or to a block that jumps to itself. -/

namespace Restless

def home : FunctionId := ⟨0, ⟨.ofString "main", by decide⟩⟩

def start : BlockId := ⟨⟨.ofString "start", by decide⟩, home⟩

def loop : BlockId := ⟨⟨.ofString "loop", by decide⟩, home⟩

def spin : BlockId := ⟨⟨.ofString "spin", by decide⟩, home⟩

def done : BlockId := ⟨⟨.ofString "done", by decide⟩, home⟩

def condition : Operand := .var ⟨"c"⟩

def branch (b b' : BlockId) : Instruction :=
  ⟨"jnz", [condition, .label b.label, .label b'.label], none, none⟩

def write : Instruction := ⟨"sstore", [.lit 1, .lit 0], none, none⟩

def function : Function where
  id := home
  blocks := [⟨start, [branch loop spin]⟩, ⟨loop, [write, branch loop done]⟩,
    ⟨spin, [⟨"jmp", [.label spin.label], none, none⟩]⟩, ⟨done, [⟨"stop", [], none, none⟩]⟩]
  lastVariable := 0
  labels_nodup := by decide

def flow : Flow where
  blocks := function.blocks
  arrows := [⟨.entry, .block start, none⟩,
    ⟨.block start, .block loop, some ⟨condition, .truth true⟩⟩,
    ⟨.block start, .block spin, some ⟨condition, .truth false⟩⟩,
    ⟨.block loop, .block loop, some ⟨condition, .truth true⟩⟩,
    ⟨.block loop, .block done, some ⟨condition, .truth false⟩⟩,
    ⟨.block spin, .block spin, none⟩, ⟨.block done, .exit, none⟩]

theorem build_function : Flow.build function = .ok flow := rfl

end Restless

end ProgDep
