import ProgDep.Proofs.DotText
import ProgDep.Proofs.FlowEdges
import ProgDep.Proofs.Layout

/-! Drawings of flow graphs, read back. There is a drawing as long as no case of a switch is a number with too
    many digits. Labels go into the quotes as they are, and so do the texts of marks. What is drawn is the graph as
    long as every quote in them is escaped and no label escapes the quote that closes it. Blocks may also be named
    like the two nodes that are no blocks. -/

namespace ProgDep

open Text Dot
open Source.Terminal (escapes)

variable {f : Function} {c : Flow}

/-! ### Names of nodes -/

namespace Text.Name

theorem letters_injective : Function.Injective letters := Function.LeftInverse.injective ofLetters_letters

theorem letters_ofString (s : String) : (ofString s).letters = plain s := by
  have hrestore : ∀ (i : Nat) (cs : List Char), Letter.restore i [] cs = cs.map .char := by
    intro i cs
    induction cs generalizing i with
    | nil => rfl
    | cons c cs ih => rw [Letter.restore, ih, List.map_cons]
  exact hrestore 0 s.toList

theorem map_toChar_letters (n : Name) : n.letters.map Letter.toChar = n.text.toList := by
  obtain ⟨text, halves, ls, rfl, rfl⟩ := n
  simp [letters, Letter.restore_halves]

theorem letters_eq_plain_iff {n : Name} {s : String} (h : '\uFFFD' ∉ s.toList) :
    n.letters = plain s ↔ n.text = s := by
  constructor
  · intro hletters
    rw [← String.toList_inj, ← map_toChar_letters, hletters, map_toChar_plain]
  · rintro rfl
    rw [← letters_ofString, ofString_text h]

end Text.Name

namespace Flow

theorem map_letters_nodes (hc : build f = .ok c) : c.nodes.map Node.letters =
    plain "ENTRY" :: (f.blocks.map (·.label.name.letters) ++ [plain "EXIT"]) := by
  rw [nodes, (build_eq_ok hc).1, List.map_append, List.map_cons, List.map_map]
  rfl

/-- The names of the nodes differ as long as no block has the name of one of the two others. -/
theorem nodup_letters_iff (hc : build f = .ok c) : (c.nodes.map Node.letters).Nodup ↔
    ∀ b ∈ f.blocks, b.label.text ≠ "ENTRY" ∧ b.label.text ≠ "EXIT" := by
  have hinj : Function.Injective fun l : Label => l.name.letters := by
    rintro ⟨n, hn⟩ ⟨m, hm⟩ h
    cases Name.letters_injective h
    rfl
  have hblocks : (f.blocks.map (·.label.name.letters)).Nodup := by
    have := f.labels_nodup.map hinj
    rwa [List.map_map] at this
  have hentry : ∀ b : Block, b.label.name.letters = plain "ENTRY" ↔ b.label.text = "ENTRY" := fun b =>
    Name.letters_eq_plain_iff (by decide)
  have hexit : ∀ b : Block, b.label.name.letters = plain "EXIT" ↔ b.label.text = "EXIT" := fun b =>
    Name.letters_eq_plain_iff (by decide)
  have hdiffer : plain "ENTRY" ≠ plain "EXIT" := by decide
  rw [map_letters_nodes hc, List.nodup_cons, List.nodup_append]
  constructor
  · rintro ⟨hout, -, -, hdisjoint⟩ b hb
    have hmem : b.label.name.letters ∈ f.blocks.map (·.label.name.letters) := List.mem_map_of_mem hb
    refine ⟨fun htext => hout (List.mem_append_left _ ?_), fun htext => ?_⟩
    · rwa [← (hentry b).2 htext]
    · exact hdisjoint _ hmem _ (List.mem_singleton_self _) ((hexit b).2 htext)
  · intro h
    refine ⟨fun hmem => ?_, hblocks, List.nodup_singleton _, fun x hx y hy hxy => ?_⟩
    · rcases List.mem_append.1 hmem with hmem | hmem
      · obtain ⟨b, hb, hletters⟩ := List.mem_map.1 hmem
        exact (h b hb).1 ((hentry b).1 hletters)
      · exact hdiffer (List.mem_singleton.1 hmem)
    · obtain ⟨b, hb, rfl⟩ := List.mem_map.1 hx
      exact (h b hb).2 ((hexit b).1 (hxy.trans (List.mem_singleton.1 hy)))

end Flow

/-! ### Texts of marks -/

/-- The text of an outcome, however long it is. -/
def Choice.text : Choice → String
  | .otherwise => "default"
  | .truth true => "true"
  | .truth false => "false"
  | .equals n => "== " ++ String.ofList (integer n)

/-- A number that an outcome is compared with has few enough digits to be written. -/
def Choice.IsWritable (c : Choice) : Prop := ∀ n, c = .equals n → n.natAbs < 10 ^ digitLimit

namespace EdgeLabel

/-- The text of a mark, however long it is. -/
def text (m : EdgeLabel) : String := m.condition.render ++ " " ++ m.choice.text

theorem render_of_isWritable {m : EdgeLabel} (h : m.choice.IsWritable) : m.render = .ok m.text := by
  obtain ⟨condition, choice⟩ := m
  cases choice with
  | truth value => cases value <;> rfl
  | otherwise => rfl
  | equals n =>
    have hwritable : isWritable n.natAbs = true := isWritable_iff.2 (h n rfl)
    rw [render, Choice.render, writeInteger, if_pos hwritable]
    rfl

theorem render_of_not_isWritable {m : EdgeLabel} (h : ¬m.choice.IsWritable) :
    m.render = .error .written := by
  obtain ⟨condition, choice⟩ := m
  obtain ⟨n, hn⟩ := not_forall.1 h
  obtain ⟨rfl, hlong⟩ := Classical.not_imp.1 hn
  have hwritable : ¬isWritable n.natAbs = true := mt isWritable_iff.1 hlong
  rw [render, Choice.render, writeInteger, if_neg hwritable]
  rfl

/-- A mark is its condition and a text without quotes and backslashes. -/
theorem exists_toList_text (m : EdgeLabel) :
    ∃ t, m.text.toList = m.condition.chars ++ [' '] ++ t ∧ Sealed t := by
  refine ⟨m.choice.text.toList, by simp [text, Operand.render], ?_⟩
  cases m.choice with
  | truth value => cases value <;> decide
  | otherwise => decide
  | equals n =>
    have hdecimal : ∀ k, Sealed (decimal k) := by
      refine fun k => sealed_of_forall fun c hc => ⟨?_, ?_⟩ <;>
      · rintro rfl
        cases Source.isDigit_of_mem_decimal hc
    have hinteger : Sealed (integer n) := by
      rw [integer]
      split
      · exact (sealed_append_iff (x := ['-']) rfl).2 ⟨by decide, hdecimal _⟩
      · exact hdecimal _
    rw [← String.toList_ofList (l := integer n)] at hinteger
    rw [Choice.text, String.toList_append]
    exact (sealed_append_iff rfl).2 ⟨by decide, hinteger⟩

theorem escapes_text (m : EdgeLabel) : escapes false m.text.toList = false := by
  obtain ⟨t, ht, hsealed⟩ := m.exists_toList_text
  rw [ht, escapes_append, escapes_concat]
  exact (sealed_iff.1 hsealed).2

theorem sealed_text_iff (m : EdgeLabel) : Sealed m.text.toList ↔ Guarded m.condition.chars := by
  obtain ⟨t, ht, hsealed⟩ := m.exists_toList_text
  have hblank : escapes false (m.condition.chars ++ [' ']) = false := escapes_concat _ _ _
  rw [ht, sealed_append_iff hblank, sealed_iff, guarded_concat_iff]
  simp [hblank, hsealed]

theorem sealed_flatMap_iff (ms : List EdgeLabel) :
    Sealed (ms.flatMap fun m => ", ".toList ++ m.text.toList) ↔ ∀ m ∈ ms, Guarded m.condition.chars := by
  have hsep : Sealed ", ".toList := by decide
  induction ms with
  | nil => simpa using sealed_of_forall (by simp)
  | cons m ms ih =>
    rw [List.flatMap_cons, List.append_assoc, sealed_append_iff rfl, sealed_append_iff m.escapes_text,
      m.sealed_text_iff, List.forall_mem_cons]
    exact (and_iff_right hsep).trans (and_congr_right' ih)

/-- Marks do not run into each other. -/
theorem sealed_intercalate_iff (ms : List EdgeLabel) :
    Sealed (String.intercalate ", " (ms.map text)).toList ↔ ∀ m ∈ ms, Guarded m.condition.chars := by
  cases ms with
  | nil => simpa using sealed_of_forall (by simp)
  | cons m ms =>
    rw [String.toList_intercalate, List.map_cons, List.map_cons, intercalate_cons, List.flatMap_map,
      List.flatMap_map, sealed_append_iff m.escapes_text, m.sealed_text_iff, sealed_flatMap_iff,
      List.forall_mem_cons]

end EdgeLabel

namespace Flow

theorem mem_marks_iff {u v : Node} {m : EdgeLabel} : m ∈ c.marks u v ↔ ⟨u, v, some m⟩ ∈ c.arrows := by
  simp only [marks, List.mem_filterMap, List.mem_filter, Bool.and_eq_true, decide_eq_true_eq]
  constructor
  · rintro ⟨⟨_, _, _⟩, ⟨ha, rfl, rfl⟩, rfl⟩
    exact ha
  · intro ha
    exact ⟨_, ⟨ha, rfl, rfl⟩, rfl⟩

theorem mem_edges_of_arrow {a : Arrow} (ha : a ∈ c.arrows) : (a.source, a.target) ∈ c.edges :=
  mem_distinct.2 (List.mem_map_of_mem ha)

/-! ### The drawing of a graph -/

/-- The text of the marks on an edge, if it has any. -/
def label? (c : Flow) (e : Node × Node) : Option String :=
  if (c.marks e.1 e.2).isEmpty then none
  else some (String.intercalate ", " ((c.marks e.1 e.2).map EdgeLabel.text))

/-- The edges with their marks as a drawing lists them. -/
def drawn (c : Flow) : List Edge :=
  c.edges.map fun e => ⟨e.1.letters, e.2.letters, labelAttributes (c.label? e)⟩

/-- Every number in the marks has few enough digits to be written. -/
def IsWritable (c : Flow) : Prop := ∀ a ∈ c.arrows, ∀ m, a.mark = some m → m.choice.IsWritable

/-- The drawing of a graph in which all numbers can be written. -/
def letters (c : Flow) : List Letter :=
  digraph "cfg" (c.edges.map fun e => edge e.1.letters e.2.letters (labelled (c.label? e)))

theorem edgeText_of_isWritable (h : c.IsWritable) (e : Node × Node) :
    c.edgeText e = .ok (c.label? e) := by
  have htexts : (c.marks e.1 e.2).mapM EdgeLabel.render =
      .ok ((c.marks e.1 e.2).map EdgeLabel.text) :=
    mapM_eq_ok_map fun m hm => EdgeLabel.render_of_isWritable (h _ (mem_marks_iff.1 hm) m rfl)
  refine bind_eq_ok_iff.2 ⟨_, htexts, ?_⟩
  rw [label?, List.isEmpty_map]
  rfl

/-- The text of an edge is missing because of a number in its marks. -/
theorem exists_of_edgeText_eq_error {e : Node × Node} {o : Oversize} (h : c.edgeText e = .error o) :
    o = .written ∧ ∃ m ∈ c.marks e.1 e.2, ¬m.choice.IsWritable := by
  rcases bind_eq_error_iff.1 h with h | ⟨_, _, h⟩
  · obtain ⟨before, m, after, hmarks, -, hm⟩ := mapM_eq_error_iff.1 h
    have hlong : ¬m.choice.IsWritable := by
      intro hwritable
      rw [EdgeLabel.render_of_isWritable hwritable] at hm
      cases hm
    rw [EdgeLabel.render_of_not_isWritable hlong] at hm
    refine ⟨(Except.error.inj hm).symm, m, ?_, hlong⟩
    rw [hmarks]
    exact List.mem_append_right before List.mem_cons_self
  · cases h

theorem render_of_isWritable (h : c.IsWritable) : c.render = .ok c.letters := by
  refine bind_eq_ok_iff.2 ⟨_, mapM_eq_ok_map fun e _ => ?_, rfl⟩
  rw [edgeText_of_isWritable h]
  rfl

/-- A number that cannot be written is somewhere on an edge, and there is no drawing without that edge. -/
theorem render_of_not_isWritable (h : ¬c.IsWritable) : c.render = .error .written := by
  cases hrender : c.render with
  | ok ls =>
    refine absurd (fun a ha m hm => ?_) h
    obtain ⟨lines, hlines, -⟩ := bind_eq_ok_iff.1 hrender
    obtain ⟨line, hline⟩ := exists_mapM_iff.1 ⟨lines, hlines⟩ _ (mem_edges_of_arrow ha)
    obtain ⟨text, htext, -⟩ := bind_eq_ok_iff.1 hline
    obtain ⟨texts, htexts, -⟩ := bind_eq_ok_iff.1 htext
    have hmark : m ∈ c.marks a.source a.target := mem_marks_iff.2 (by rwa [← hm])
    obtain ⟨s, hs⟩ := exists_mapM_iff.1 ⟨texts, htexts⟩ m hmark
    by_contra hlong
    rw [EdgeLabel.render_of_not_isWritable hlong] at hs
    cases hs
  | error o =>
    rcases bind_eq_error_iff.1 hrender with hlines | ⟨_, _, hlines⟩
    · obtain ⟨_, e, _, _, -, he⟩ := mapM_eq_error_iff.1 hlines
      rcases bind_eq_error_iff.1 he with he | ⟨_, _, he⟩
      · rw [(exists_of_edgeText_eq_error he).1]
      · cases he
    · cases hlines

/-- The marks can be drawn if every quote in the conditions is escaped. -/
theorem sealed_label_iff (c : Flow) : (∀ e ∈ c.edges, ∀ text, c.label? e = some text → Sealed text.toList) ↔
    ∀ a ∈ c.arrows, ∀ m, a.mark = some m → Guarded m.condition.chars := by
  constructor
  · rintro h ⟨u, v, mark⟩ ha m rfl
    have hm : m ∈ c.marks u v := mem_marks_iff.2 ha
    have hlabel : c.label? (u, v) = some (String.intercalate ", " ((c.marks u v).map EdgeLabel.text)) :=
      if_neg fun hempty => List.ne_nil_of_mem hm (List.isEmpty_iff.1 hempty)
    exact (EdgeLabel.sealed_intercalate_iff _).1 (h _ (mem_edges_of_arrow ha) _ hlabel) m hm
  · intro h e he text htext
    rw [label?] at htext
    split at htext
    · cases htext
    · cases htext
      exact (EdgeLabel.sealed_intercalate_iff _).2 fun m hm => h _ (mem_marks_iff.1 hm) m rfl

/-- The names on the edges are those of the blocks and of the two other nodes. -/
theorem forall_ends_iff (hc : build f = .ok c) {P : List Letter → Prop} (hentry : P (plain "ENTRY"))
    (hexit : P (plain "EXIT")) : (∀ e ∈ c.edges, P e.1.letters ∧ P e.2.letters) ↔
      ∀ b ∈ f.blocks, P b.label.name.letters := by
  constructor
  · intro h b hb
    obtain ⟨v, hv⟩ := List.exists_mem_of_length_pos (one_le_length_out hc hb)
    exact (h _ (mem_distinct.2 (Digraph.mem_out.1 hv))).1
  · intro h
    rintro ⟨u, v⟩ he
    cases goes_of_arc hc (mem_distinct.1 he) with
    | start hb => exact ⟨hentry, h _ (List.mem_of_head? hb)⟩
    | leave hb _ _ => exact ⟨h _ hb, hexit⟩
    | branch hb _ _ _ hb' _ => exact ⟨h _ hb, h _ hb'⟩

theorem sealed_ends_iff (hc : build f = .ok c) :
    (∀ e ∈ c.edges, Sealed (e.1.letters.map Letter.toChar) ∧ Sealed (e.2.letters.map Letter.toChar)) ↔
      ∀ b ∈ f.blocks, Sealed b.label.text.toList := by
  simp only [Label.text, ← Name.map_toChar_letters]
  exact forall_ends_iff (P := fun x => Sealed (x.map Letter.toChar)) hc (by decide) (by decide)

/-- If the edges are read back, the names on them are sealed. -/
theorem sealed_of_read? {es : List Edge} (h : Dot.read? c.letters = some es)
    (hes : es.map (fun e => (e.source, e.target)) = c.edges.map fun e => (e.1.letters, e.2.letters)) :
    ∀ e ∈ c.edges, Sealed (e.1.letters.map Letter.toChar) ∧ Sealed (e.2.letters.map Letter.toChar) := by
  intro e he
  have hmem : (e.1.letters, e.2.letters) ∈ es.map fun e => (e.source, e.target) := by
    rw [hes]
    exact List.mem_map_of_mem he
  obtain ⟨e', he', hends⟩ := List.mem_map.1 hmem
  obtain ⟨hsource, htarget⟩ := Prod.mk.inj hends
  have hall := all_of_read? h e' he'
  rw [← hsource, ← htarget]
  exact ⟨hall.source, hall.target⟩

theorem sealed_of_drawn (h : Dot.read? c.letters = some c.drawn) :
    ∀ e ∈ c.edges, ∀ text, c.label? e = some text → Sealed text.toList := by
  intro e he text htext
  have hall := all_of_read? h _ (List.mem_map_of_mem he)
  have hattr : (plain "label", plain text) ∈ labelAttributes (c.label? e) := by
    rw [htext]
    exact List.mem_singleton_self _
  rw [← map_toChar_plain]
  exact (hall.attributes _ hattr).2

/-- There is a drawing of a flow graph exactly if all numbers in its marks can be written. It is read back as
    the edges with their marks exactly if the labels of the blocks end where their quotes do and every quote in a
    condition is escaped. The labels have to do so even if only the ends of the edges are read back. The nodes have
    different names exactly if no block is named like the entry or the exit. -/
theorem drawing_read_iff (hc : build f = .ok c) :
    ((c.IsWritable → c.render = .ok c.letters) ∧ (¬c.IsWritable → c.render = .error .written)) ∧
      (Dot.read? c.letters = some c.drawn ↔ (∀ b ∈ f.blocks, Sealed b.label.text.toList) ∧
        ∀ a ∈ c.arrows, ∀ m, a.mark = some m → Guarded m.condition.chars) ∧
      (∀ es, Dot.read? c.letters = some es →
        (es.map fun e => (e.source, e.target)) = (c.edges.map fun e => (e.1.letters, e.2.letters)) →
          ∀ b ∈ f.blocks, Sealed b.label.text.toList) ∧
      ((c.nodes.map Node.letters).Nodup ↔
        ∀ b ∈ f.blocks, b.label.text ≠ "ENTRY" ∧ b.label.text ≠ "EXIT") := by
  refine ⟨⟨render_of_isWritable, render_of_not_isWritable⟩, ?_,
    fun es h hes => (sealed_ends_iff hc).1 (sealed_of_read? h hes), nodup_letters_iff hc⟩
  rw [← sealed_ends_iff hc, ← sealed_label_iff]
  constructor
  · intro h
    have hends : (c.drawn.map fun e => (e.source, e.target)) =
        c.edges.map fun e => (e.1.letters, e.2.letters) := by
      rw [drawn, List.map_map]
      rfl
    exact ⟨sealed_of_read? h hends, sealed_of_drawn h⟩
  · rintro ⟨hnames, hlabels⟩
    exact read?_lines (fun e he => (hnames e he).1) (fun e he => (hnames e he).2) hlabels

end Flow

/-! ### Examples -/

namespace Crossing

def home : FunctionId := ⟨0, ⟨.ofString "crossing", by decide⟩⟩

def kerb : BlockId := ⟨⟨.ofString "kerb", by decide⟩, home⟩

def island : BlockId := ⟨⟨.ofString "far \\\"island\\\"", by decide⟩, home⟩

/-- Quotes in the second label are escaped, so it can be drawn. -/
def function : Function where
  id := home
  blocks := [⟨kerb, [⟨"jnz", [.var ⟨"green"⟩, .label island.label, .label kerb.label], none, none⟩]⟩,
    ⟨island, [⟨"stop", [], none, none⟩]⟩]
  lastVariable := 0
  labels_nodup := by decide

def flow : Flow where
  blocks := function.blocks
  arrows := [⟨.entry, .block kerb, none⟩, ⟨.block kerb, .block island, some ⟨.var ⟨"green"⟩, .truth true⟩⟩,
    ⟨.block kerb, .block kerb, some ⟨.var ⟨"green"⟩, .truth false⟩⟩, ⟨.block island, .exit, none⟩]

end Crossing

/-- A branch to itself and to a block whose label holds quotes. -/
theorem Flow.drawing_read_iff_crossing : build Crossing.function = .ok Crossing.flow ∧
    Crossing.flow.render = .ok Crossing.flow.letters ∧
    Dot.read? Crossing.flow.letters = some Crossing.flow.drawn ∧
      (Crossing.flow.nodes.map Node.letters).Nodup := by
  have h : build Crossing.function = .ok Crossing.flow := by cbv
  have hwritable : Crossing.flow.IsWritable := by
    intro a ha m hm n hn
    simp only [Crossing.flow, List.mem_cons, List.not_mem_nil, or_false] at ha
    rcases ha with rfl | rfl | rfl | rfl <;> cases hm <;> cases hn
  obtain ⟨⟨hrender, -⟩, hread, -, hnodup⟩ := drawing_read_iff h
  exact ⟨h, hrender hwritable, hread.2 ⟨by decide, by decide⟩, hnodup.2 (by decide)⟩

namespace Crossing

def verge : BlockId := ⟨⟨.ofString "grass\"verge", by decide⟩, home⟩

/-- The quote in the label is not escaped. -/
def path : Function where
  id := home
  blocks := [⟨verge, [⟨"stop", [], none, none⟩]⟩]
  lastVariable := 0
  labels_nodup := by decide

def pathFlow : Flow := ⟨path.blocks, [⟨.entry, .block verge, none⟩, ⟨.block verge, .exit, none⟩]⟩

end Crossing

/-- A quote in a label ends the name in the drawing. The text is still well formed but lists edges of other
    nodes, two of which are no nodes of the graph. -/
theorem Flow.drawing_lists_other_edges : build Crossing.path = .ok Crossing.pathFlow ∧
    Crossing.pathFlow.edges = [(.entry, .block Crossing.verge), (.block Crossing.verge, .exit)] ∧
    Crossing.pathFlow.render = .ok (plain <|
      "digraph cfg \x7b\n    \"ENTRY\" -> \"grass\"verge\"\n    \"grass\"verge\" -> \"EXIT\"\n\x7d") ∧
    Dot.read? Crossing.pathFlow.letters =
      some [⟨plain "ENTRY", plain "grass", []⟩, ⟨plain "verge", plain "EXIT", []⟩] :=
  ⟨by cbv, by decide, rfl, by decide⟩

end ProgDep
