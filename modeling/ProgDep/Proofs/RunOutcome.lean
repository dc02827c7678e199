import ProgDep.CommandLine.Run
import ProgDep.Proofs.Assembly
import ProgDep.Proofs.RoundTrip
import ProgDep.Proofs.ShownLabels
import ProgDep.Proofs.UnreachableCode

/-! How a run on a readable text ends. Every analysis of a function that has a flow graph can be built, so
    a drawing is there unless the function is malformed or leaving out its unreachable blocks is a
    failure, and of both the user is told. What is left are requests that the program does not check, a
    switch that goes without its value and a function asked for by an empty name, and drawings that are
    there but are not `Legible`.

    The invariant of the work is that warnings are treated in one way throughout and that the cache of a
    function is `Consistent`; one drawing keeps it, and drawing in several formats and several functions
    are inductions. Functions and formats make up one list of jobs, and the run ends at the first job
    that is not done. -/

namespace ProgDep

open Dominance Text

/-! ### One drawing -/

/-- What a drawing takes: a flow graph, and for the dependence graph that no block is left out where that
    is a failure. Blocks are left out if unreachable ones are not included. -/
def Drawable (f : Function) (includeUnreachable : Bool) (mode : WarningMode) (x : Format) : Prop :=
  ∃ c, Flow.build f = .ok c ∧ ¬(x = .dependence ∧ includeUnreachable = false ∧
    (∃ b ∈ f.blocks, ¬c.graph.Reaches .entry (.block b.id)) ∧ mode = .fail)

namespace Direct

section defs

variable (f : Function) (s : Settings) (mode : WarningMode)

def frontiers : Except AnalysisFailure (List (Node × List Node)) := do
  let t ← dominators f
  let c ← flow f
  return t.frontiers c.graph t.nodes

/-- The drawing of a function, without a cache. -/
def drawing : Format → Except AnalysisFailure (Except Oversize (List Letter))
  | .flow => (flow f).map Flow.render
  | .dominators => (dominators f).map fun t => .ok (t.render Format.dominatorTitle Node.letters)
  | .postDominators =>
    (postDominators f).map fun t => .ok (t.render Format.postDominatorTitle Node.letters)
  | .frontiers => (frontiers f).map fun fs => .ok (Format.renderFrontiers fs)
  | .control => (control f).map fun k => .ok k.render
  | .dependence => (dependence f s mode).map fun g => .ok g.render

end defs

variable {f : Function} {c : Flow} {s : Settings} {mode : WarningMode} {x : Format}

theorem dominators_eq_ok {t : DominatorTree Node} (hc : Flow.build f = .ok c)
    (ht : c.dominatorTree = .ok t) : dominators f = .ok t := by
  rw [dominators, flow_eq_ok hc]
  show c.dominatorTree.mapError _ = _
  rw [ht]
  rfl

theorem drawing_of_malformed {m : Malformed} (h : Flow.build f = .error m) :
    drawing f s mode x = .error (.malformed m) := by
  have hflow : flow f = .error (.malformed m) := by
    rw [flow, h]
    rfl
  have hdominators : dominators f = .error (.malformed m) := by
    rw [dominators, hflow]
    rfl
  cases x with
  | flow => rw [drawing, hflow]; rfl
  | dominators => rw [drawing, hdominators]; rfl
  | postDominators => rw [drawing, postDominators, hflow]; rfl
  | frontiers => rw [drawing, frontiers, hdominators]; rfl
  | control => rw [drawing, control, hflow]; rfl
  | dependence => rw [drawing, dependence, hflow]; rfl

/-- A drawing that is a text. -/
def IsText (drawn : Except Oversize (List Letter)) : Prop :=
  ∃ ls text, drawn = .ok ls ∧ Letter.text? ls = some text

theorem isText_ok_iff {ls : List Letter} : IsText (.ok ls) ↔ Letter.Whole ls := by
  rw [← Letter.exists_text?_iff, IsText]
  simp

/-- A function with a flow graph can be drawn, unless leaving out blocks is a failure, and the drawing is a
    text if it is legible. -/
theorem exists_drawing_eq (hc : Flow.build f = .ok c) (s : Settings) (mode : WarningMode) (x : Format) :
    ∃ drawn, drawing f s mode x =
      (if x = .dependence ∧ s.includeUnreachable = false ∧ c.unreachableBlocks ≠ [] ∧ mode = .fail then
        .error (.warning (Request.unreachableWarning f c.unreachableBlocks))
      else .ok drawn) ∧ (IsText drawn ↔ Legible f s.includeUnreachable x) := by
  obtain ⟨t, ht, htfor⟩ := Dominance.exists_build c.graph .entry
  obtain ⟨t', ht', hfor⟩ := Dominance.exists_build c.graph.flip .exit
  obtain ⟨k, hk, -⟩ := Control.exists_build hc hfor
  have hdominators := dominators_eq_ok hc ht
  rw [legible_iff hc]
  cases x with
  | flow =>
    refine ⟨c.render, by rw [drawing, flow_eq_ok hc]; rfl, ?_⟩
    by_cases hwritable : c.IsWritable
    · rw [Flow.render_of_isWritable hwritable, isText_ok_iff, Flow.whole_letters_iff hc]
      simp [hwritable, Flow.Shows]
    · rw [Flow.render_of_not_isWritable hwritable]
      simp [hwritable, IsText]
  | dominators =>
    refine ⟨_, by rw [drawing, hdominators]; rfl, ?_⟩
    rw [isText_ok_iff, Flow.whole_render_tree_iff htfor (Dot.whole_plain _),
      Flow.forall_whole_iff hc fun b => Flow.mem_blocks_of_reaches_entry hc]
    simp [Flow.Shows]
  | postDominators =>
    refine ⟨_, by rw [drawing, postDominators_eq_ok hc ht']; rfl, ?_⟩
    rw [isText_ok_iff, Flow.whole_render_tree_iff hfor (Dot.whole_plain _)]
    simp only [Digraph.reaches_flip]
    rw [Flow.forall_whole_iff hc fun b => Flow.mem_blocks_of_reaches_exit hc]
    simp [Flow.Shows]
  | frontiers =>
    refine ⟨_, by rw [drawing, frontiers, hdominators, flow_eq_ok hc]; rfl, ?_⟩
    rw [isText_ok_iff, Flow.whole_renderFrontiers_iff hc htfor,
      Flow.forall_whole_iff hc fun b => Flow.mem_blocks_of_borders hc]
    simp [Flow.Shows]
  | control =>
    refine ⟨_, by rw [drawing, control_eq_ok hc ht' hk]; rfl, ?_⟩
    rw [isText_ok_iff, Flow.whole_render_control_iff hc hfor hk s.includeUnreachable]
    simp
  | dependence =>
    refine ⟨.ok (DependenceGraph.build s c (.build f) k).render, ?_, ?_⟩
    · rw [drawing, dependence_eq hc ht' hk]
      simp only [true_and]
      split <;> rfl
    · rw [isText_ok_iff, Flow.whole_render_dependence_iff hc]
      simp

theorem unreachableBlocks_ne_nil (hc : Flow.build f = .ok c) : c.unreachableBlocks ≠ [] ↔
    ∃ b ∈ f.blocks, ¬c.graph.Reaches .entry (.block b.id) := by
  rw [Flow.unreachableBlocks, (Flow.build_eq_ok hc).1]
  simp [← Flow.isReachable_iff, Flow.isReachable]

theorem exists_drawing_iff : (∃ drawn, drawing f s mode x = .ok drawn) ↔
    Drawable f s.includeUnreachable mode x := by
  cases hc : Flow.build f with
  | error m =>
    rw [drawing_of_malformed hc, Drawable]
    simp [hc]
  | ok c =>
    obtain ⟨drawn, h, -⟩ := exists_drawing_eq hc s mode x
    rw [h, Drawable]
    simp only [hc, Except.ok.injEq, exists_eq_left', ← unreachableBlocks_ne_nil hc]
    split
    · simp_all
    · simp_all

theorem isText_iff_legible {drawn : Except Oversize (List Letter)} (h : drawing f s mode x = .ok drawn) :
    IsText drawn ↔ Legible f s.includeUnreachable x := by
  cases hc : Flow.build f with
  | error m =>
    rw [drawing_of_malformed hc] at h
    cases h
  | ok c =>
    obtain ⟨drawn', h', hlegible⟩ := exists_drawing_eq hc s mode x
    rw [h'] at h
    split at h
    · cases h
    · cases h
      exact hlegible

/-- A drawing that is not there is one that the user is told about. -/
theorem told_of_drawing_eq_error {e : AnalysisFailure} (h : drawing f s mode x = .error e) :
    ∃ message, (CommandLine.RunFailure.analysis e).told? = some message := by
  cases hc : Flow.build f with
  | error m =>
    rw [drawing_of_malformed hc] at h
    cases h
    exact ⟨_, rfl⟩
  | ok c =>
    obtain ⟨drawn, hdrawn, -⟩ := exists_drawing_eq hc s mode x
    rw [hdrawn] at h
    split at h
    · cases h
      exact ⟨_, rfl⟩
    · cases h

end Direct

/-- Drawing on a consistent cache gives what drawing without a cache gives. -/
theorem computes_render (f : Function) (s : Settings) (mode : WarningMode) (x : Format) :
    ∃ new, Computes f s mode (x.render f) (Direct.drawing f s mode x) new := by
  cases x with
  | flow => exact ⟨_, computes_flow.map⟩
  | dominators => exact ⟨_, computes_dominators.map⟩
  | postDominators => exact ⟨_, computes_postDominators.map⟩
  | frontiers =>
    have hfrontiers : Computes f s mode (Request.frontiers f) (Direct.frontiers f)
        (Built f s mode [.dominators, .flow]) :=
      computes_dominators.need rfl fun _ => computes_flow.need rfl fun _ => .pure _
    exact ⟨_, hfrontiers.map⟩
  | control => exact ⟨_, computes_control.map⟩
  | dependence => exact ⟨_, computes_dependence.map⟩

namespace CommandLine

/-! ### Jobs -/

section jobs

variable {α : Type} {good bad : α → Prop} {a : α} {as bs : List α}

/-- The first item that is not good is bad. -/
def StopsAt (good bad : α → Prop) (as : List α) : Prop :=
  ∃ before a after, as = before ++ a :: after ∧ (∀ b ∈ before, good b) ∧ bad a

theorem not_stopsAt_nil : ¬StopsAt good bad [] := by
  rintro ⟨before, a, after, h, _⟩
  simp at h

theorem stopsAt_cons_iff : StopsAt good bad (a :: as) ↔ bad a ∨ (good a ∧ StopsAt good bad as) := by
  constructor
  · rintro ⟨before, b, after, h, hbefore, hb⟩
    cases before with
    | nil =>
      cases h
      exact Or.inl hb
    | cons a' before =>
      cases h
      obtain ⟨ha, hbefore⟩ := List.forall_mem_cons.1 hbefore
      exact Or.inr ⟨ha, before, b, after, rfl, hbefore, hb⟩
  · rintro (ha | ⟨ha, before, b, after, rfl, hbefore, hb⟩)
    · exact ⟨[], a, as, rfl, by simp, ha⟩
    · exact ⟨a :: before, b, after, rfl, List.forall_mem_cons.2 ⟨ha, hbefore⟩, hb⟩

theorem stopsAt_append_iff : StopsAt good bad (as ++ bs) ↔
    StopsAt good bad as ∨ ((∀ a ∈ as, good a) ∧ StopsAt good bad bs) := by
  induction as with
  | nil => simp [not_stopsAt_nil]
  | cons a as ih =>
    rw [List.cons_append, stopsAt_cons_iff, stopsAt_cons_iff, ih, List.forall_mem_cons]
    tauto

end jobs

/-- A function to be drawn in a format. -/
abbrev Job := Function × Format

/-- The function can be drawn in the format, and the drawing can be printed. -/
def Done (includeUnreachable : Bool) (mode : WarningMode) (j : Job) : Prop :=
  Drawable j.1 includeUnreachable mode j.2 ∧ Legible j.1 includeUnreachable j.2

/-- The function can be drawn in the format, but the drawing cannot be printed. -/
def Stuck (includeUnreachable : Bool) (mode : WarningMode) (j : Job) : Prop :=
  Drawable j.1 includeUnreachable mode j.2 ∧ ¬Legible j.1 includeUnreachable j.2

/-! ### Work that tells what goes wrong -/

/-- From the output `o`, the work succeeds exactly if `p`, and fails without a word about it exactly if `c`;
    after it, warnings are treated by `mode`. -/
structure Settles (mode : WarningMode) (q : Work Unit) (o : Output) (p c : Prop) : Prop where
  mode_eq : (q.run.run o).2.console.filter.mode = mode
  ok_iff : (q.run.run o).1 = .ok () ↔ p
  silent_iff : (∃ e, (q.run.run o).1 = .error e ∧ e.told? = none) ↔ c
  printable : ∀ e, (q.run.run o).1 = .error e → e.isPrintable = true

namespace Settles

variable {mode : WarningMode} {q q' : Work Unit} {o o' : Output} {p p' c c' : Prop} {e : RunFailure}

theorem congr (h : Settles mode q o p c) (hp : p ↔ p') (hc : c ↔ c') : Settles mode q o p' c' :=
  ⟨h.mode_eq, h.ok_iff.trans hp, h.silent_iff.trans hc, h.printable⟩

theorem of_run_eq (h : q.run.run o = q'.run.run o') (hq : Settles mode q' o' p c) :
    Settles mode q o p c :=
  ⟨h ▸ hq.mode_eq, h ▸ hq.ok_iff, h ▸ hq.silent_iff, h ▸ hq.printable⟩

theorem of_ok (h : q.run.run o = (.ok (), o')) (ho : o'.console.filter.mode = mode) (hp : p)
    (hc : ¬c) : Settles mode q o p c where
  mode_eq := by rw [h, ho]
  ok_iff := by simp [h, hp]
  silent_iff := by simp [h, hc]
  printable := by simp [h]

theorem of_error (h : q.run.run o = (.error e, o')) (ho : o'.console.filter.mode = mode)
    (he : e.isPrintable = true) (hp : ¬p) (hc : e.told? = none ↔ c) : Settles mode q o p c where
  mode_eq := by rw [h, ho]
  ok_iff := by simp [h, hp]
  silent_iff := by simp [h, hc]
  printable := by simp [h, he]

end Settles

namespace Work

section steps

variable {α ε : Type} {failure : ε → RunFailure} {r : Except ε α}

theorem run_ofExcept_of_ok {v : α} (h : r = .ok v) (o : Output) :
    (ofExcept failure r).run.run o = (.ok v, o) := by
  rw [h]
  rfl

theorem run_ofExcept_of_error {cause : ε} (h : r = .error cause) (o : Output) :
    (ofExcept failure r).run.run o = (.error (failure cause), o) := by
  rw [h]
  rfl

end steps

variable {f : Function} {s : Settings} {mode : WarningMode} {c : Cache} {x : Format} {xs : List Format}
  {o : Output} {r : Run}

theorem run_drawFunction_of_text {ls : List Letter} {text : String}
    (h : (x.render f).run.run ⟨c, o.console⟩ = (.ok (.ok ls), r)) (htext : Letter.text? ls = some text) :
    (drawFunction f c (x :: xs)).run.run o =
      (drawFunction f r.cache xs).run.run ⟨o.text ++ text ++ "\n", r.console⟩ := by
  rw [drawFunction, run_bind_of_ok (run_get o), h]
  show ((do line ls; drawFunction f r.cache xs : Work Unit).run.run ⟨o.text, r.console⟩) = _
  rw [line, htext]
  rfl

/-- What is no text is not written, and nobody is told why. -/
theorem run_drawFunction_of_not_isText {drawn : Except Oversize (List Letter)}
    (h : (x.render f).run.run ⟨c, o.console⟩ = (.ok drawn, r)) (hdrawn : ¬Direct.IsText drawn)
    (xs : List Format) :
    ∃ e, (drawFunction f c (x :: xs)).run.run o = (.error e, ⟨o.text, r.console⟩) ∧ e.told? = none ∧
      e.isPrintable = true := by
  rw [drawFunction, run_bind_of_ok (run_get o), h]
  cases drawn with
  | error e => exact ⟨.oversize e, rfl, rfl, rfl⟩
  | ok ls =>
    refine ⟨.unprintable, ?_, rfl, rfl⟩
    show ((do line ls; drawFunction f r.cache xs : Work Unit).run.run ⟨o.text, r.console⟩) = _
    cases htext : Letter.text? ls with
    | none =>
      rw [line, htext]
      rfl
    | some text => exact absurd ⟨ls, text, rfl, htext⟩ hdrawn

theorem run_drawFunction_of_error {e : AnalysisFailure}
    (h : (x.render f).run.run ⟨c, o.console⟩ = (.error e, r)) :
    (drawFunction f c (x :: xs)).run.run o = (.error (.analysis e), ⟨o.text, r.console⟩) := by
  rw [drawFunction, run_bind_of_ok (run_get o), h]
  rfl

/-- A function is drawn in the formats one by one, up to the first in which it cannot be drawn or printed. -/
theorem settles_drawFunction (h : Consistent f s mode ⟨c, o.console⟩) :
    Settles mode (drawFunction f c xs) o (∀ j ∈ xs.map (Prod.mk f), Done s.includeUnreachable mode j)
      (StopsAt (Done s.includeUnreachable mode) (Stuck s.includeUnreachable mode) (xs.map (Prod.mk f))) := by
  -- the cache passes from one drawing to the next, and stays consistent
  induction xs generalizing c o with
  | nil => exact .of_ok rfl h.mode_eq (by simp) not_stopsAt_nil
  | cons x xs ih =>
    obtain ⟨_, hcomputes⟩ := computes_render f s mode x
    obtain ⟨r, hrun, hr, -⟩ := hcomputes _ h
    rw [List.map_cons, List.forall_mem_cons, stopsAt_cons_iff]
    cases hx : Direct.drawing f s mode x with
    | error e =>
      have hdrawable : ¬Drawable f s.includeUnreachable mode x := by
        rw [← Direct.exists_drawing_iff, hx]
        simp
      obtain ⟨message, hmessage⟩ := Direct.told_of_drawing_eq_error hx
      rw [hx] at hrun
      refine .of_error (run_drawFunction_of_error hrun) hr.mode_eq rfl ?_ ?_
      · exact fun hall => hdrawable hall.1.1
      · rw [hmessage]
        refine iff_of_false (by simp) ?_
        rintro (hstuck | ⟨hdone, _⟩)
        · exact hdrawable hstuck.1
        · exact hdrawable hdone.1
    | ok drawn =>
      have hdrawable : Drawable f s.includeUnreachable mode x := Direct.exists_drawing_iff.1 ⟨drawn, hx⟩
      have hlegible := Direct.isText_iff_legible hx
      rw [hx] at hrun
      by_cases htext : Direct.IsText drawn
      · have hdone : Done s.includeUnreachable mode (f, x) := ⟨hdrawable, hlegible.1 htext⟩
        have hstuck : ¬Stuck s.includeUnreachable mode (f, x) := fun hstuck => hstuck.2 hdone.2
        obtain ⟨ls, text, rfl, htext⟩ := htext
        refine (Settles.of_run_eq (run_drawFunction_of_text hrun htext) (ih hr)).congr ?_ ?_
        · rw [and_iff_right hdone]
        · rw [or_iff_right hstuck, and_iff_right hdone]
      · obtain ⟨e, he, hsilent, hprintable⟩ := run_drawFunction_of_not_isText hrun htext xs
        have hstuck : Stuck s.includeUnreachable mode (f, x) := ⟨hdrawable, mt hlegible.2 htext⟩
        refine .of_error he hr.mode_eq hprintable ?_ ?_
        · exact fun hall => hstuck.2 hall.1.2
        · exact iff_of_true hsilent (Or.inl hstuck)

/-- Pieces of work one after the other settle if each of them does. -/
theorem settles_forM {α β : Type} {g : α → Work Unit} {jobs : α → List β} {good bad : β → Prop}
    {as : List α} (h : ∀ a ∈ as, ∀ o : Output, o.console.filter.mode = mode →
      Settles mode (g a) o (∀ j ∈ jobs a, good j) (StopsAt good bad (jobs a)))
    (ho : o.console.filter.mode = mode) : Settles mode (as.forM g) o (∀ j ∈ as.flatMap jobs, good j)
      (StopsAt good bad (as.flatMap jobs)) := by
  induction as generalizing o with
  | nil => exact .of_ok rfl ho (by simp) not_stopsAt_nil
  | cons a as ih =>
    obtain ⟨ha, has⟩ := List.forall_mem_cons.1 h
    obtain ⟨hmode, hok, hsilent, hprintable⟩ := ha o ho
    rw [List.flatMap_cons, List.forall_mem_append, stopsAt_append_iff, ← hok, ← hsilent]
    cases hrun : (g a).run.run o with
    | mk r o' =>
      rw [hrun] at hmode hprintable
      cases r with
      | error e => exact .of_error (run_bind_of_error hrun) hmode (hprintable e rfl) (by simp) (by simp)
      | ok v => exact (Settles.of_run_eq (run_bind_of_ok hrun) (ih has hmode)).congr (by simp) (by simp)

end Work

/-! ### What is asked for -/

/-- The functions of a module that are asked for: all, or the one of a name. -/
inductive Asks (m : Module) : Slot String → List Function → Prop
  | all : Asks m .unset m.functions
  | one {f : Function} {name : String} : f ∈ m.functions → f.name.name = .ofString name →
      Asks m (.given name) [f]

theorem Asks.unique {m : Module} {slot : Slot String} {fs fs' : List Function} (h : Asks m slot fs)
    (h' : Asks m slot fs') : fs = fs' := by
  cases h with
  | all =>
    cases h'
    rfl
  | one hf hname =>
    cases h' with
    | one hf' hname' =>
      have heq := Label.name_injective (hname.trans hname'.symm)
      rw [List.inj_on_of_nodup_map m.names_nodup hf hf' heq]

theorem Asks.ne_empty {m : Module} {name : String} {fs : List Function}
    (h : Asks m (.given name) fs) : name ≠ "" := by
  rintro rfl
  cases h with
  | @one f _ _ hname => exact f.name.ne_empty (congrArg Text.Name.text hname)

namespace Arguments

/-- The length of paths is not bounded, or bounded by a number that is not negative. -/
def HasBound (a : Arguments) : Prop := a.depth = .unset ∨ ∃ n : Nat, a.depth = .given n

/-- Warnings are treated by `mode`; if nothing else is asked for, each is shown once. -/
def Treats (a : Arguments) (mode : WarningMode) : Prop :=
  a.warnings = .given mode ∨ (a.warnings = .unset ∧ mode = .once)

/-- All that is asked for can be done: the functions asked for are there, and each can be drawn in every
    format and printed. -/
def Completes (a : Arguments) (m : Module) (formats : List Format) : Prop :=
  a.HasBound ∧ ∃ mode fs, a.Treats mode ∧ Asks m a.function fs ∧
    ∀ j ∈ fs.product formats, Done a.includeUnreachable mode j

/-- Of all that is asked for, in the order of the functions and then of the formats, the first drawing that is
    not done is there but cannot be printed. -/
def Breaks (a : Arguments) (m : Module) (formats : List Format) : Prop :=
  a.HasBound ∧ ∃ mode fs, a.Treats mode ∧ Asks m a.function fs ∧
    StopsAt (Done a.includeUnreachable mode) (Stuck a.includeUnreachable mode) (fs.product formats)

/-- What is asked for in a way that is not checked: a switch that goes without its value, or a function
    with the empty name. A negative bound is found before the other switches are looked at. -/
def Stumbles (a : Arguments) : Prop :=
  a.depth = .emptied ∨
    (a.HasBound ∧ (a.warnings = .emptied ∨ a.function = .emptied ∨ a.function = .given ""))

end Arguments

namespace Work

variable {m : Module} {slot : Slot String} {mode : WarningMode} {s : Settings} {formats : List Format}
  {text : String} {o : Output}

/-- The functions asked for are found, or the user is told that there are none; but a switch without its
    value and an empty name are not checked. -/
theorem run_select_cases (m : Module) (slot : Slot String) (o : Output) :
    (∃ fs, (select m slot).run.run o = (.ok fs, o) ∧ Asks m slot fs ∧
        slot ≠ .emptied ∧ slot ≠ .given "") ∨
      ∃ e, (select m slot).run.run o = (.error e, o) ∧ (∀ fs, ¬Asks m slot fs) ∧
        (e.told? = none ↔ slot = .emptied ∨ slot = .given "") ∧ e.isPrintable = true := by
  cases slot with
  | unset => exact .inl ⟨m.functions, rfl, .all, by simp, by simp⟩
  | emptied =>
    refine .inr ⟨.emptied .function, rfl, fun fs h => ?_, by simp [RunFailure.told?], rfl⟩
    cases h
  | given name =>
    rw [select]
    cases hlabel : Label.ofString? name with
    | none =>
      have hempty : name = "" := Label.ofName?_eq_none.1 hlabel
      have hgiven : Label.ofGiven (some name) = .error (.badLabel (some name)) := by
        rw [Label.ofGiven, Option.bind_some, hlabel]
      rw [run_bind_of_error (run_ofExcept_of_error hgiven o)]
      exact .inr ⟨_, rfl, fun fs h => h.ne_empty hempty, by simp [RunFailure.told?, hempty], rfl⟩
    | some l =>
      have hl : l.name = .ofString name := Label.name_of_ofName? hlabel
      have hname : name ≠ "" := by
        intro hempty
        apply l.ne_empty
        rw [hl, hempty]
        rfl
      have hgiven : Label.ofGiven (some name) = .ok l := by
        rw [Label.ofGiven, Option.bind_some, hlabel]
      rw [run_bind_of_ok (run_ofExcept_of_ok hgiven o)]
      cases hf : m.function? l with
      | some f =>
        obtain ⟨hmem, rfl⟩ := Module.function?_eq_some_iff.1 hf
        exact .inl ⟨[f], rfl, .one hmem hl, by simp, by simpa using hname⟩
      | none =>
        refine .inr ⟨.notFound name, rfl, fun fs h => ?_, by simp [RunFailure.told?, hname], rfl⟩
        cases h with
        | @one f _ hmem hfname =>
          have hfl : f.name = l := Label.name_injective (hfname.trans hl.symm)
          rw [Module.function?_eq_some_iff.2 ⟨hmem, hfl⟩] at hf
          cases hf

theorem run_draw (hparse : Module.parse 0 text = .ok m) (s : Settings) (slot : Slot String)
    (formats : List Format) (o : Output) : (draw s slot formats text).run.run o =
      ((select m slot) >>= fun fs => fs.forM fun f => drawFunction f (.empty s) formats).run.run o := by
  rw [draw, run_bind_of_ok (run_ofExcept_of_ok hparse o)]

/-- The functions of a readable text that are asked for are drawn one by one, up to the first that cannot
    be drawn or printed. -/
theorem settles_draw (hparse : Module.parse 0 text = .ok m) (ho : o.console.filter.mode = mode) :
    Settles mode (draw s slot formats text) o
      (∃ fs, Asks m slot fs ∧ ∀ j ∈ fs.product formats, Done s.includeUnreachable mode j)
      ((slot = .emptied ∨ slot = .given "") ∨ ∃ fs, Asks m slot fs ∧
        StopsAt (Done s.includeUnreachable mode) (Stuck s.includeUnreachable mode) (fs.product formats)) := by
  have hdraw := run_draw hparse s slot formats o
  rcases run_select_cases m slot o with ⟨fs, hrun, hasks, hslot, hname⟩ | ⟨e, hrun, hnone, hsilent, he⟩
  · rw [run_bind_of_ok hrun] at hdraw
    have hall : Settles mode (fs.forM fun f => drawFunction f (.empty s) formats) o
        (∀ j ∈ fs.product formats, Done s.includeUnreachable mode j)
        (StopsAt (Done s.includeUnreachable mode) (Stuck s.includeUnreachable mode) (fs.product formats)) :=
      settles_forM (fun f _ o' ho' => settles_drawFunction (ho' ▸ consistent_empty f s o'.console)) ho
    have hunique : ∀ P : List Function → Prop, P fs ↔ ∃ fs, Asks m slot fs ∧ P fs := by
      refine fun P => ⟨fun h => ⟨fs, hasks, h⟩, ?_⟩
      rintro ⟨fs', hasks', h⟩
      rwa [hasks.unique hasks']
    refine (Settles.of_run_eq hdraw hall).congr
      (hunique fun fs => ∀ j ∈ fs.product formats, Done s.includeUnreachable mode j) ?_
    rw [or_iff_right (not_or.2 ⟨hslot, hname⟩)]
    exact hunique fun fs => StopsAt _ _ (fs.product formats)
  · refine .of_error (hdraw.trans (run_bind_of_error hrun)) ho he ?_ ?_
    · rintro ⟨fs, hasks, -⟩
      exact hnone fs hasks
    · rw [hsilent, iff_comm]
      refine or_iff_left ?_
      rintro ⟨fs, hasks, -⟩
      exact hnone fs hasks

end Work

/-! ### Arguments -/

namespace Arguments

variable {a : Arguments} {m : Module} {formats : List Format} {mode : WarningMode}

theorem settings_cases (a : Arguments) :
    (a.HasBound ∧ ∃ s, a.settings = .ok s ∧ s.includeUnreachable = a.includeUnreachable) ∨
      (¬a.HasBound ∧ ∃ e, a.settings = .error e ∧ (e.told? = none ↔ a.depth = .emptied) ∧
        e.isPrintable = true) := by
  rw [HasBound, settings, bound]
  cases a.depth with
  | unset => exact .inl ⟨.inl rfl, _, rfl, rfl⟩
  | emptied => exact .inr ⟨by simp, _, rfl, by simp [RunFailure.told?], rfl⟩
  | given n =>
    by_cases hn : n < 0
    · refine .inr ⟨?_, .job .negativeDepth, ?_, by simp [RunFailure.told?], rfl⟩
      · rintro (h | ⟨k, h⟩)
        · cases h
        · cases h
          omega
      · show (Settings.ofDepth (some n) _ _).mapError _ = _
        rw [Settings.ofDepth, if_pos hn]
        rfl
    · refine .inl ⟨.inr ⟨n.toNat, by rw [Int.toNat_of_nonneg (Int.not_lt.1 hn)]⟩,
        ⟨some n.toNat, a.memoryDependence, a.includeUnreachable⟩, ?_, rfl⟩
      show (Settings.ofDepth (some n) _ _).mapError _ = _
      rw [Settings.ofDepth, if_neg hn]
      rfl

theorem warningMode_eq_ok_iff : a.warningMode = .ok mode ↔ a.Treats mode := by
  rw [warningMode, Treats]
  cases a.warnings with
  | unset => simp [eq_comm]
  | emptied => simp
  | given mode' => simp

theorem warningMode_of_emptied (h : a.warnings = .emptied) :
    a.warningMode = .error (.emptied .warnings) := by
  rw [warningMode, h]

theorem exists_treats (h : a.warnings ≠ .emptied) : ∃ mode, a.Treats mode := by
  cases hw : a.warnings with
  | unset => exact ⟨.once, .inr ⟨hw, rfl⟩⟩
  | emptied => exact absurd hw h
  | given mode => exact ⟨mode, .inl hw⟩

theorem Treats.unique {mode' : WarningMode} (h : a.Treats mode) (h' : a.Treats mode') :
    mode = mode' := by
  rw [← warningMode_eq_ok_iff] at h h'
  exact Except.ok.inj (h.symm.trans h')

theorem not_treats (h : a.warnings = .emptied) : ¬a.Treats mode := by
  simp [Treats, h]

section work

variable {w : Surroundings} {text : String} {s : Settings} {e : RunFailure}

theorem run_work_of_settings_error (hformats : a.drawings = .ok formats) (hs : a.settings = .error e)
    (o : Output) : (Work.ofArguments a w).run.run o = (.error e, o) := by
  rw [Work.ofArguments, run_bind_of_ok (Work.run_ofExcept_of_ok hformats o),
    run_bind_of_error (Work.run_ofExcept_of_error hs o)]
  rfl

theorem run_work_of_warningMode_error (hformats : a.drawings = .ok formats) (hs : a.settings = .ok s)
    (htext : a.source w = .ok text) (hmode : a.warningMode = .error e) (o : Output) :
    (Work.ofArguments a w).run.run o = (.error e, o) := by
  rw [Work.ofArguments, run_bind_of_ok (Work.run_ofExcept_of_ok hformats o),
    run_bind_of_ok (Work.run_ofExcept_of_ok hs o),
    run_bind_of_ok (Work.run_ofExcept_of_ok htext o),
    run_bind_of_error (Work.run_ofExcept_of_error hmode o)]
  rfl

theorem run_work (hformats : a.drawings = .ok formats) (hs : a.settings = .ok s)
    (htext : a.source w = .ok text) (hmode : a.warningMode = .ok mode) (o : Output) :
    (Work.ofArguments a w).run.run o =
      (Work.draw s a.function formats text).run.run { o with console := .start mode } := by
  rw [Work.ofArguments, run_bind_of_ok (Work.run_ofExcept_of_ok hformats o),
    run_bind_of_ok (Work.run_ofExcept_of_ok hs o),
    run_bind_of_ok (Work.run_ofExcept_of_ok htext o),
    run_bind_of_ok (Work.run_ofExcept_of_ok hmode o)]
  rfl

/-- Work on a readable text in known formats settles. The settings are made first, then the way to treat
    warnings is set, and the functions come last. -/
theorem exists_settles (hformats : a.drawings = .ok formats) (htext : a.source w = .ok text)
    (hparse : Module.parse 0 text = .ok m) (o : Output) :
    ∃ mode, Settles mode (Work.ofArguments a w) o (a.Completes m formats)
      (a.Stumbles ∨ a.Breaks m formats) := by
  rcases a.settings_cases with ⟨hbound, s, hs, hinclude⟩ | ⟨hbound, e, hs, hsilent, he⟩
  · have hdepth : a.depth ≠ .emptied := by
      intro hdepth
      simp [HasBound, hdepth] at hbound
    by_cases hwarnings : a.warnings = .emptied
    · have hrun := run_work_of_warningMode_error hformats hs htext (warningMode_of_emptied hwarnings) o
      refine ⟨_, .of_error hrun rfl rfl ?_ (iff_of_true rfl (.inl (.inr ⟨hbound, .inl hwarnings⟩)))⟩
      rintro ⟨-, mode, fs, hmode, -⟩
      exact not_treats hwarnings hmode
    · obtain ⟨mode, hmode⟩ := exists_treats hwarnings
      have hrun := run_work hformats hs htext (warningMode_eq_ok_iff.2 hmode) o
      refine ⟨mode, (Settles.of_run_eq hrun (Work.settles_draw hparse rfl)).congr ?_ ?_⟩
      · rw [hinclude]
        constructor
        · rintro ⟨fs, hasks, hall⟩
          exact ⟨hbound, mode, fs, hmode, hasks, hall⟩
        · rintro ⟨-, mode', fs, hmode', hasks, hall⟩
          rw [hmode.unique hmode']
          exact ⟨fs, hasks, hall⟩
      · rw [hinclude]
        refine or_congr ⟨fun h => .inr ⟨hbound, .inr h⟩, ?_⟩ ⟨?_, ?_⟩
        · rintro (h | ⟨-, h | h⟩)
          · exact absurd h hdepth
          · exact absurd h hwarnings
          · exact h
        · rintro ⟨fs, hasks, hstops⟩
          exact ⟨hbound, mode, fs, hmode, hasks, hstops⟩
        · rintro ⟨-, mode', fs, hmode', hasks, hstops⟩
          rw [hmode.unique hmode']
          exact ⟨fs, hasks, hstops⟩
  · have hrun := run_work_of_settings_error (w := w) hformats hs o
    refine ⟨_, .of_error hrun rfl he (fun h => hbound h.1) ?_⟩
    rw [hsilent]
    constructor
    · exact fun h => .inl (.inl h)
    · rintro ((h | ⟨h, -⟩) | ⟨h, -⟩)
      · exact h
      · exact absurd h hbound
      · exact absurd h hbound

end work

end Arguments

/-- A run on a text that can be read, in formats that there are, ends well exactly if all that is asked for
    can be done: the functions are there, each has a flow graph, no block is left out where that is a
    failure, and the drawings can be printed. It breaks down exactly if a switch goes without its value, a
    function is asked for by the empty name, or the first drawing that is not done shows half of a pair or
    would show a number that cannot be written. In all other cases the user is told what is wrong in the
    last line. -/
theorem run_ending_iff {line : List String} {a : Arguments} {w : Surroundings} {formats : List Format}
    {text : String} {m : Module} (hread : Arguments.read line = .ok a)
    (hformats : a.drawings = .ok formats) (htext : a.source w = .ok text)
    (hparse : Module.parse 0 text = .ok m) :
    ((run line w).ending = .success ↔ a.Completes m formats) ∧
      ((∃ e, (run line w).ending = .crash e) ↔ a.Stumbles ∨ a.Breaks m formats) ∧
      (¬a.Completes m formats → ¬(a.Stumbles ∨ a.Breaks m formats) → (run line w).ending = .failure ∧
        ∃ written message, (run line w).text = written ++ "Error: " ++ message ++ "\n") := by
  obtain ⟨mode, -, hok, hsilent, hprintable⟩ :=
    Arguments.exists_settles hformats htext hparse ⟨"", .start .once⟩
  rw [run, hread, ← hok, ← hsilent]
  dsimp only
  rw [Arguments.run]
  cases hrun : (Work.ofArguments a w).run.run ⟨"", .start .once⟩ with
  | mk r o =>
    rw [hrun] at hprintable
    cases r with
    | ok _ => simp
    | error e =>
      dsimp only
      cases hmessage : e.told? with
      | none => simp [hmessage]
      | some message =>
        dsimp only
        rw [if_pos (hprintable e rfl)]
        exact ⟨by simp, by simp [hmessage], fun _ _ => ⟨rfl, o.text, message, rfl⟩⟩

/-! A function with a block that nothing leads to. -/

namespace Patchy

def main : FunctionId := ⟨0, ⟨.ofString "patchy", by decide⟩⟩

def top : BlockId := ⟨⟨.ofString "top", by decide⟩, main⟩

def limbo : BlockId := ⟨⟨.ofString "limbo", by decide⟩, main⟩

def halt : Instruction := ⟨"stop", [], none, none⟩

def function : Function where
  id := main
  blocks := [⟨top, [halt]⟩, ⟨limbo, [halt]⟩]
  lastVariable := 0
  labels_nodup := by decide

def program : Module := ⟨[function], by decide⟩

def source : String := "function patchy \x7b\ntop:\n  stop\nlimbo:\n  stop\n\x7d\n"

theorem parse_source : Module.parse 0 source = .ok program := by
  rw [Module.parse, Source.read_eq_scanWithin]
  rfl

def flow : Flow where
  blocks := function.blocks
  arrows := [⟨.entry, .block top, none⟩, ⟨.block top, .exit, none⟩, ⟨.block limbo, .exit, none⟩]

theorem build_function : Flow.build function = .ok flow := rfl

/-- No label holds half of a pair, and no number is shown. -/
theorem legible_function (includeUnreachable : Bool) (x : Format) :
    Legible function includeUnreachable x := by
  refine (legible_iff build_function).2 ⟨fun _ a ha m hm => ?_, fun b hb _ => ?_⟩
  · simp only [flow, List.mem_cons, List.not_mem_nil, or_false] at ha
    rcases ha with rfl | rfl | rfl <;> cases hm
  · simp only [function, List.mem_cons, List.not_mem_nil, or_false] at hb
    rcases hb with rfl | rfl
    · exact Name.letters_ofString _ ▸ Dot.whole_plain _
    · exact Name.letters_ofString _ ▸ Dot.whole_plain _

theorem not_reaches_limbo : ¬flow.graph.Reaches .entry (.block limbo) := by
  rw [← Flow.isReachable_iff]
  cbv
  simp

def files : Surroundings := ⟨none, fun _ => .ok source⟩

def strict : List String :=
  ["patchy.ir", "--exclude-unreachable", "--warnings-control", "error", "-f", "cfg,deps"]

def strictArguments : Arguments :=
  { Arguments.default with
    input := some "patchy.ir", includeUnreachable := false, warnings := .given .fail,
    formats := .given "cfg,deps" }

def plainArguments : Arguments := { Arguments.default with input := some "patchy.ir" }

def unnamedArguments : Arguments := { plainArguments with function := .given "" }

end Patchy

open Patchy

/-- Leaving out a block is a failure that is told, once warnings are failures. -/
theorem run_ending_iff_patchy :
    Arguments.read strict = .ok strictArguments ∧ Arguments.read ["patchy.ir"] = .ok plainArguments ∧
      strictArguments.drawings = .ok [.flow, .dependence] ∧ plainArguments.drawings = .ok [.dependence] ∧
      strictArguments.source files = .ok source ∧
      plainArguments.source files = .ok source ∧ Module.parse 0 source = .ok program ∧
      (run strict files).ending = .failure ∧
      (run ["patchy.ir"] files).ending = .success := by
  have hbad : ¬strictArguments.Completes program [.flow, .dependence] := by
    rintro ⟨-, mode, fs, hmode, hasks, hall⟩
    obtain rfl : fs = program.functions := by
      cases hasks
      rfl
    have hjob : (function, Format.dependence) ∈ program.functions.product [.flow, .dependence] :=
      List.mem_product.2 ⟨List.mem_cons_self, by decide⟩
    obtain ⟨⟨c, hc, hno⟩, -⟩ := hall _ hjob
    obtain rfl : flow = c := Except.ok.inj (build_function.symm.trans hc)
    refine hno ⟨rfl, rfl, ⟨⟨limbo, [halt]⟩, by decide, not_reaches_limbo⟩, ?_⟩
    simpa [Arguments.Treats, strictArguments, eq_comm] using hmode
  have hchecked : ¬(strictArguments.Stumbles ∨ strictArguments.Breaks program [.flow, .dependence]) := by
    rintro (h | ⟨-, mode, fs, -, hasks, before, j, after, hjobs, -, hstuck⟩)
    · simp [Arguments.Stumbles, strictArguments, Arguments.default] at h
    · cases hasks
      have hj : j ∈ program.functions.product [.flow, .dependence] := by
        rw [hjobs]
        exact List.mem_append_right before List.mem_cons_self
      obtain ⟨f, hf⟩ := j
      obtain rfl := List.mem_singleton.1 (List.mem_product.1 hj).1
      exact hstuck.2 (legible_function _ _)
  have hgood : plainArguments.Completes program [.dependence] := by
    refine ⟨.inl rfl, .once, _, .inr ⟨rfl, rfl⟩, .all, ?_⟩
    rintro ⟨f, x⟩ hj
    obtain rfl := List.mem_singleton.1 (List.mem_product.1 hj).1
    exact ⟨⟨flow, build_function, by simp⟩, legible_function _ _⟩
  exact ⟨rfl, rfl, rfl, rfl, rfl, rfl, parse_source,
    ((run_ending_iff rfl rfl rfl parse_source).2.2 hbad hchecked).1,
    (run_ending_iff rfl rfl rfl parse_source).1.2 hgood⟩

/-- An empty name is no name that a function has, but the user is not told so. -/
theorem run_crash_of_empty_name :
    Arguments.read ["patchy.ir", "--function", ""] = .ok unnamedArguments ∧
      unnamedArguments.drawings = .ok [.dependence] ∧
      unnamedArguments.source files = .ok source ∧ Module.parse 0 source = .ok program ∧
      (run ["patchy.ir", "--function", ""] files).ending =
        .crash (.refused (.badLabel (some ""))) := by
  have htext : unnamedArguments.source files = .ok source := rfl
  have hrun := Arguments.run_work rfl rfl htext rfl ⟨"", .start .once⟩
  refine ⟨rfl, rfl, htext, parse_source, ?_⟩
  show (unnamedArguments.run files).ending = _
  rw [Arguments.run, hrun, Work.run_draw parse_source]
  rfl

end CommandLine

end ProgDep
