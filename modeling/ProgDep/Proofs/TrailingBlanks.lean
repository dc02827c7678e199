import ProgDep.Proofs.LineBreaks
import ProgDep.Proofs.RoundTrip

/-! Blanks at the end of a line. White space is skipped as a whole, with the line breaks in it. So blanks before
    the line break that ends a label or a statement hide it, and the next line is read as a part of the same
    line. Elsewhere they make no difference: at the end of a comment, of a line that goes on, of a line that is
    blank, and before a comment, whose own line break ends the statement.

    A line that is not ended in this way goes on with the next one only if that starts with a variable or a
    number. A variable needs an equals sign at the start of a line and takes none as an operand; a number is an
    opcode at the start of a line. So the text with the blanks has fewer statements than the one without, or
    only one of the two can be read. -/

namespace ProgDep.Source

open Terminal

variable {r : Reading} {u w rest z : List Char} {d : List RawFunction} {q : State} {g : RawFunction}

/-- Spaces and tabs. -/
def isPadding (c : Char) : Bool := c == ' ' || c == '\t'

theorem isSpace_of_isPadding {c : Char} (h : isPadding c = true) : isSpace c = true := by
  simp only [isPadding, Bool.or_eq_true, beq_iff_eq] at h
  rcases h with rfl | rfl <;> rfl

theorem startsBlank_of_break {v : List Char} (hv : 0 < newlineWidth v) : StartsBlank v := by
  fun_cases newlineWidth v with
  | case1 v => exact .space rfl (.feed v)
  | case2 v => exact .feed v
  | case3 v hreturn hfeed =>
    rw [newlineWidth] at hv
    · cases hv
    · exact hreturn
    · exact hfeed

theorem startsBlank_padding (hw : ∀ c ∈ w, isPadding c = true) {v : List Char} (hv : StartsBlank v) :
    StartsBlank (w ++ v) := by
  induction w with
  | nil => exact hv
  | cons c w ih =>
    obtain ⟨hc, hw⟩ := List.forall_mem_cons.1 hw
    exact .space (isSpace_of_isPadding hc) (ih hw)

/-- Whether a text starts with a line break is seen from its first characters. -/
theorem newlineWidth_cases (u : List Char) : u = [] ∨ u = ['\r'] ∨
    (∀ v, 0 < newlineWidth (u ++ v)) ∨ ∀ v, newlineWidth (u ++ v) = 0 := by
  match u with
  | [] => exact .inl rfl
  | [c] =>
    by_cases hfeed : c = '\n'
    · subst hfeed
      exact .inr (.inr (.inl fun v => by simp [newlineWidth]))
    · by_cases hreturn : c = '\r'
      · exact .inr (.inl (by rw [hreturn]))
      · exact .inr (.inr (.inr fun v => by simp [newlineWidth, hfeed, hreturn]))
  | c :: c' :: u =>
    by_cases hfeed : c = '\n'
    · subst hfeed
      exact .inr (.inr (.inl fun v => by simp [newlineWidth]))
    · by_cases hbreak : c = '\r' ∧ c' = '\n'
      · obtain ⟨rfl, rfl⟩ := hbreak
        exact .inr (.inr (.inl fun v => by simp [newlineWidth]))
      · refine .inr (.inr (.inr fun v => ?_))
        rw [List.cons_append, List.cons_append, newlineWidth]
        · rintro y h
          cases h
          exact hbreak ⟨rfl, rfl⟩
        · rintro y h
          cases h
          exact hfeed rfl

/-- Between a carriage return and the line feed after it, blanks part the two. -/
theorem newlineWidth_padding (hw : IsRun isPadding w) (hu : u = [] ∨ u = ['\r']) (v : List Char) :
    newlineWidth (u ++ (w ++ v)) = 0 := by
  obtain ⟨c, w, rfl⟩ := List.exists_cons_of_ne_nil hw.1
  have hc := hw.2 c List.mem_cons_self
  simp only [isPadding, Bool.or_eq_true, beq_iff_eq] at hc
  rcases hc with rfl | rfl <;> rcases hu with rfl | rfl <;> simp [newlineWidth]

theorem dropWhile_padding (hu : ∀ c ∈ u, isSpace c = true) (hw : ∀ c ∈ w, isPadding c = true)
    (rest : List Char) : (u ++ (w ++ rest)).dropWhile isSpace = rest.dropWhile isSpace := by
  rw [List.dropWhile_append_of_pos hu, List.dropWhile_append_of_pos fun c hc => isSpace_of_isPadding (hw c hc)]

/-- Reading is right before a line break that ends a label or a statement, of which a carriage return may be
    on this side. -/
def AtBreak (r : Reading) (u rest : List Char) : Prop :=
  (∃ g, AwaitsBreak r.state g) ∧ (u = [] ∨ u = ['\r']) ∧ 0 < newlineWidth (u ++ rest)

/-- Where only blanks come before a line break, more of them make no difference unless the line is complete. -/
theorem outcome_padding_of_blank (hw : IsRun isPadding w) (hu : ∀ c ∈ u, isSpace c = true) :
    outcome r (u ++ (w ++ rest)) = outcome r (u ++ rest) ∨ AtBreak r u rest := by
  have hdrop := dropWhile_padding hu hw.2 rest
  have hdrop' : (u ++ rest).dropWhile isSpace = rest.dropWhile isSpace := List.dropWhile_append_of_pos hu
  -- if neither of the two starts with a line break, or reading does not stop there, they are skipped
  have hskip (h : r.accepts .newline = true → newlineWidth (u ++ rest) = 0)
      (h' : r.accepts .newline = true → newlineWidth (u ++ (w ++ rest)) = 0) :
      outcome r (u ++ (w ++ rest)) = outcome r (u ++ rest) := by
    rw [outcome_spaces h, outcome_spaces h', hdrop, hdrop']
  cases haccepts : r.accepts .newline with
  | false => exact .inl (hskip (by simp [haccepts]) (by simp [haccepts]))
  | true =>
    obtain ⟨d, q⟩ := r
    rcases awaitsBreak_or_line haccepts with ⟨f, hq⟩ | ⟨g, hg⟩
    · cases hq
      left
      rw [outcome_line, hdrop, outcome_line d f (u ++ rest), hdrop']
    · have hends (hends : u = [] ∨ u = ['\r']) :
          outcome ⟨d, q⟩ (u ++ (w ++ rest)) = outcome ⟨d, q⟩ (u ++ rest) ∨ AtBreak ⟨d, q⟩ u rest := by
        rcases Nat.eq_zero_or_pos (newlineWidth (u ++ rest)) with hzero | hpos
        · exact .inl (hskip (fun _ => hzero) fun _ => newlineWidth_padding hw hends rest)
        · exact .inr ⟨⟨g, hg⟩, hends, hpos⟩
      rcases newlineWidth_cases u with hnil | hreturn | hpos | hzero
      · exact hends (.inl hnil)
      · exact hends (.inr hreturn)
      · left
        rw [outcome_break (hg.closes d) (hpos _), outcome_break (hg.closes d) (hpos _), hdrop, hdrop']
      · exact .inl (hskip (fun _ => hzero _) fun _ => hzero _)

/-- A label or a statement is complete right before the line break. -/
def EndsItem (r : Reading) (u rest : List Char) : Prop :=
  ∃ x r', Completes r u x r' ∧ (x = [] ∨ x = ['\r']) ∧ 0 < newlineWidth (x ++ rest)

/-- After blanks comes something else, and after a comment the line feed. -/
theorem drop_of_isIgnored {t : Terminal} (hu : HasSolid u) (hpos : 0 < t.width u) (hig : t.isIgnored = true)
    (hne : t = .comment → u.drop (t.width u) ≠ []) :
    ¬(u.drop (t.width u) = [] ∨ u.drop (t.width u) = ['\r']) := by
  cases t with
  | comment =>
    have hdrop : u.drop (width .comment u) = u.dropWhile (· ≠ '\n') := drop_commentWidth hpos
    rintro (hnil | hreturn)
    · exact hne rfl hnil
    · rw [hdrop] at hreturn
      cases eq_feed_of_dropWhile hreturn
  | blank =>
    obtain ⟨c, hc, hsolid⟩ := hu
    have hdrop : u.drop (width .blank u) = u.dropWhile isSpace := drop_run isSpace u
    rw [← List.takeWhile_append_dropWhile (p := isSpace) (l := u), List.mem_append] at hc
    have hmem : c ∈ u.dropWhile isSpace := by
      refine hc.resolve_left fun htake => ?_
      cases hsolid.symm.trans (List.mem_takeWhile_imp htake)
    rw [← hdrop] at hmem
    rintro (hnil | hreturn)
    · rw [hnil] at hmem
      cases hmem
    · rw [hreturn, List.mem_singleton] at hmem
      rw [hmem] at hsolid
      cases hsolid
  | _ => cases hig

/-- Blanks at the end of a comment are part of it. -/
theorem outcome_padding_of_comment (hw : ∀ c ∈ w, isPadding c = true) (hrest : 0 < newlineWidth rest)
    (hpos : 0 < commentWidth u) (hdrop : u.drop (commentWidth u) = []) :
    outcome r (u ++ (w ++ rest)) = outcome r (u ++ rest) := by
  have hblank := startsBlank_of_break hrest
  have hblank' := startsBlank_padding hw hblank
  rw [drop_commentWidth hpos, List.dropWhile_eq_nil_iff] at hdrop
  have hw' : ∀ c ∈ w, decide (c ≠ '\n') = true := by
    intro c hc
    have hpadding := hw c hc
    simp only [isPadding, Bool.or_eq_true, beq_iff_eq] at hpadding
    rcases hpadding with rfl | rfl <;> rfl
  rw [outcome_comment ((commentWidth_pos_append hblank' u).2 hpos),
    outcome_comment ((commentWidth_pos_append hblank u).2 hpos), List.dropWhile_append_of_pos hdrop,
    List.dropWhile_append_of_pos hdrop, List.dropWhile_append_of_pos hw']

/-- Blanks before a line break make no difference where nothing is complete right before it. -/
theorem outcome_padding (hw : IsRun isPadding w) (hrest : 0 < newlineWidth rest) (r : Reading)
    (u : List Char) : outcome r (u ++ (w ++ rest)) = outcome r (u ++ rest) ∨ AtBreak r u rest ∨
      EndsItem r u rest := by
  have hblank := startsBlank_of_break hrest
  have hblank' := startsBlank_padding hw.2 hblank
  induction hn : u.length using Nat.strongRecOn generalizing r u with
  | ind n ih =>
    by_cases hu : HasSolid u
    · cases ht : first? r.accepts u with
      | none =>
        have hne : ∀ v, u ++ v ≠ [] := by
          obtain ⟨c, hc, _⟩ := hu
          exact fun v => List.append_ne_nil_of_left_ne_nil (List.ne_nil_of_mem hc) v
        left
        rw [outcome_of_none (hne _) ((first?_append hblank hu _).trans ht),
          outcome_of_none (hne _) ((first?_append hblank' hu _).trans ht)]
      | some t =>
        have hlength := hn ▸ length_drop_lt ht
        cases hig : t.isIgnored with
        | false =>
          obtain ⟨r', hstep⟩ := exists_step_of_first? ht hig (u.take (t.width u))
          rw [outcome_append_of_take hblank hu ht hig hstep, outcome_append_of_take hblank' hu ht hig hstep]
          rcases ih _ hlength r' _ rfl with h | ⟨⟨g, hg⟩, hends, hpos⟩ | ⟨x, r'', hrest, hends⟩
          · exact .inl h
          · exact .inr (.inr ⟨_, r', .last ht hig hstep hg, hends, hpos⟩)
          · exact .inr (.inr ⟨x, r'', .take ht hig hstep hrest, hends⟩)
        | true =>
          by_cases hover : t = .comment ∧ u.drop (t.width u) = []
          · obtain ⟨rfl, hdrop⟩ := hover
            exact .inl (outcome_padding_of_comment hw.2 hrest (width_pos_of_first? ht) hdrop)
          · have hne : t = .comment → u.drop (t.width u) ≠ [] := fun hcomment hdrop => hover ⟨hcomment, hdrop⟩
            rw [outcome_append_of_skip hblank hu ht hig hne, outcome_append_of_skip hblank' hu ht hig hne]
            rcases ih _ hlength r _ rfl with h | ⟨-, hends, -⟩ | ⟨x, r', hrest, hends⟩
            · exact .inl h
            · exact absurd hends (drop_of_isIgnored hu (width_pos_of_first? ht) hig hne)
            · exact .inr (.inr ⟨x, r', .skip ht hig hrest, hends⟩)
    · refine (outcome_padding_of_blank hw fun c hc => ?_).imp_right .inl
      by_contra hsolid
      exact hu ⟨c, hc, Bool.eq_false_iff.2 hsolid⟩

/-! ### After a complete line -/

/-- Right after a complete label or statement, the line break ends it, while blanks hide the line break. -/
theorem EndsItem.outcomes (h : EndsItem r u rest) (hw : IsRun isPadding w) (hrest : 0 < newlineWidth rest) :
    ∃ d q g, AwaitsBreak q g ∧
      outcome r (u ++ rest) = outcome ⟨d, .line g true⟩ (rest.dropWhile isSpace) ∧
      outcome r (u ++ (w ++ rest)) = outcome ⟨d, q⟩ (rest.dropWhile isSpace) := by
  obtain ⟨x, ⟨d, q⟩, hcompletes, hx, hpos⟩ := h
  obtain ⟨g, hg⟩ := hcompletes.awaitsBreak
  have hblank := startsBlank_of_break hrest
  have hspace : ∀ c ∈ x, isSpace c = true := by
    rcases hx with rfl | rfl
    · simp
    · exact List.all_eq_true.1 rfl
  refine ⟨d, q, g, hg, ?_, ?_⟩
  · rw [hcompletes.outcome_append hblank, outcome_break (hg.closes d) hpos, List.dropWhile_append_of_pos hspace]
  · rw [hcompletes.outcome_append (startsBlank_padding hw.2 hblank),
      outcome_spaces fun _ => newlineWidth_padding hw hx rest, dropWhile_padding hspace hw.2]

/-- The line break at the end of a comment ends the line as well. -/
theorem outcome_of_comment (hq : AwaitsBreak q g) (hz : 0 < commentWidth z) :
    outcome ⟨d, q⟩ z = outcome ⟨d, .line g true⟩ z := by
  rw [outcome_comment hz, outcome_comment hz]
  cases hrest : z.dropWhile (· ≠ '\n') with
  | nil =>
    rw [outcome_nil, outcome_nil, hq.isComplete]
    rfl
  | cons c y =>
    have hpos : 0 < newlineWidth (c :: y) := by
      rw [eq_feed_of_dropWhile hrest, newlineWidth]
      exact Nat.succ_pos _
    rw [outcome_break (hq.closes d) hpos, ← outcome_line]

/-! ### Items are counted -/

/-- The number of labels and statements. -/
def items (fs : List RawFunction) : Nat := (fs.map (·.body.length)).sum

namespace State

/-- The state with nothing in the function under way. -/
def bare : State → State
  | .outside => .outside
  | .naming => .naming
  | .named x => .named x
  | .line _ b => .line ⟨[], []⟩ b
  | .word _ x => .word ⟨[], []⟩ x
  | .quoted _ x => .quoted ⟨[], []⟩ x
  | .labelled _ x => .labelled ⟨[], []⟩ x
  | .assigning _ x => .assigning ⟨[], []⟩ x
  | .assigned _ x => .assigned ⟨[], []⟩ x
  | .copyMark _ x => .copyMark ⟨[], []⟩ x
  | .opcode _ s => .opcode ⟨[], []⟩ s
  | .mark _ s => .mark ⟨[], []⟩ s
  | .operand _ s => .operand ⟨[], []⟩ s
  | .comma _ s => .comma ⟨[], []⟩ s
  | .copied _ s => .copied ⟨[], []⟩ s

/-- The items of the function under way. -/
def items : State → Nat
  | .outside | .naming | .named _ => 0
  | .line f _ | .word f _ | .quoted f _ | .labelled f _ | .assigning f _ | .assigned f _ | .copyMark f _
  | .opcode f _ | .mark f _ | .operand f _ | .comma f _ | .copied f _ => f.body.length

variable {t : Terminal} {x : Lexeme} {p q q' : State}

/-- What a token does does not depend on the items before it. -/
theorem step_bare (h : q.step t x = some p) :
    ∃ p', q.bare.step t x = some p' ∧ p.bare = p'.bare ∧ p.items = q.items + p'.items := by
  cases q with
  | line f b => cases b <;> cases t <;> cases h <;> exact ⟨_, rfl, rfl, by simp [items]⟩
  | _ =>
    cases t <;> cases h <;> exact ⟨_, rfl, rfl, by simp [items, close, RawFunction.push]⟩

theorem isSome_step_bare (q : State) (t : Terminal) (x : Lexeme) :
    (q.step t x).isSome = (q.bare.step t x).isSome := by
  cases q with
  | line f b => cases b <;> cases t <;> rfl
  | _ => cases t <;> rfl

theorem step_of_bare_eq (h : q.bare = q'.bare) (hstep : q.step t x = some p) :
    ∃ p', q'.step t x = some p' ∧ p.bare = p'.bare ∧ p.items + q'.items = p'.items + q.items := by
  have hsome : (q'.step t x).isSome = true := by
    rw [isSome_step_bare, ← h, ← isSome_step_bare, hstep]
    rfl
  obtain ⟨p', hstep'⟩ := Option.isSome_iff_exists.1 hsome
  obtain ⟨p₀, hbare, hp, hitems⟩ := step_bare hstep
  obtain ⟨p₁, hbare', hp', hitems'⟩ := step_bare hstep'
  rw [← h, hbare] at hbare'
  cases hbare'
  exact ⟨p', hstep', hp.trans hp'.symm, by omega⟩

end State

namespace Reading

/-- The items of all functions read so far. -/
def items (r : Reading) : Nat := Source.items r.done + r.state.items

variable {t : Terminal} {x : Lexeme} {r r' p : Reading}

theorem step_of_state {q p : State} (d : List RawFunction) (h : q.step t x = some p) :
    step ⟨d, q⟩ t x = some ⟨d, p⟩ := by
  rw [step.eq_def]
  split
  · rename_i f b hq
    cases hq
    cases b <;> cases h
  · rw [h]
    rfl

/-- What a token does does not depend on what has been read before. -/
theorem step_of_bare_eq (h : r.state.bare = r'.state.bare) (hstep : r.step t x = some p) :
    ∃ p', r'.step t x = some p' ∧ p.state.bare = p'.state.bare ∧
      p.items + r'.items = p'.items + r.items := by
  obtain ⟨d, q⟩ := r
  obtain ⟨d', q'⟩ := r'
  rw [step.eq_def] at hstep
  split at hstep
  · rename_i f b hq
    cases hq
    cases q' with
    | line f' b' =>
      cases hstep
      refine ⟨⟨d' ++ [f'], .outside⟩, rfl, rfl, ?_⟩
      simp [items, Source.items, State.items]
      omega
    | _ => cases h
  · obtain ⟨p, hstate, rfl⟩ := Option.map_eq_some_iff.1 hstep
    have h : q.bare = q'.bare := h
    obtain ⟨p', hstate', hbare, hitems⟩ := State.step_of_bare_eq h hstate
    refine ⟨⟨d', p'⟩, step_of_state d' hstate', hbare, ?_⟩
    simp only [items]
    omega

theorem accepts_of_bare_eq (h : r.state.bare = r'.state.bare) : r.accepts = r'.accepts := by
  funext t
  rw [Bool.eq_iff_iff, accepts, accepts, Option.isSome_iff_exists, Option.isSome_iff_exists]
  constructor
  · rintro ⟨p, hp⟩
    obtain ⟨p', hp', -⟩ := step_of_bare_eq h hp
    exact ⟨p', hp'⟩
  · rintro ⟨p, hp⟩
    obtain ⟨p', hp', -⟩ := step_of_bare_eq h.symm hp
    exact ⟨p', hp'⟩

end Reading

/-- Reading on from two places that differ only in what has been read before comes to the same, and the
    difference in items stays. -/
theorem outcome_of_bare_eq {r : Reading} (r' : Reading) {cs : List Char} {fs : List RawFunction}
    (hr : outcome r cs = some fs) (h : r.state.bare = r'.state.bare) :
    ∃ fs', outcome r' cs = some fs' ∧ items fs + r'.items = items fs' + r.items := by
  induction hn : cs.length using Nat.strongRecOn generalizing r r' cs with
  | ind n ih =>
    by_cases hne : cs = []
    · rw [hne, outcome_nil] at hr ⊢
      obtain ⟨d, q⟩ := r
      obtain ⟨d', q'⟩ := r'
      have hq : q = .outside := by
        by_contra hq
        rw [Reading.isComplete, decide_eq_false hq] at hr
        cases hr
      subst hq
      cases q' with
      | outside =>
        cases hr
        exact ⟨d', rfl, by simp only [Reading.items, State.items]; omega⟩
      | _ => cases h
    · cases ht : first? r.accepts cs with
      | none =>
        rw [outcome_of_none hne ht] at hr
        cases hr
      | some t =>
        have ht' : first? r'.accepts cs = some t := by rw [← Reading.accepts_of_bare_eq h, ht]
        have hlength := hn ▸ length_drop_lt ht
        cases hig : t.isIgnored with
        | true =>
          rw [outcome_of_skip ht hig] at hr
          rw [outcome_of_skip ht' hig]
          exact ih _ hlength r' hr h rfl
        | false =>
          obtain ⟨p, hstep⟩ := exists_step_of_first? ht hig (cs.take (t.width cs))
          obtain ⟨p', hstep', hbare, hitems⟩ := Reading.step_of_bare_eq h hstep
          rw [outcome_of_take ht hig hstep] at hr
          rw [outcome_of_take ht' hig hstep']
          obtain ⟨fs', hfs', hrest⟩ := ih _ hlength p' hr hbare rfl
          exact ⟨fs', hfs', by omega⟩

/-! ### A line that is not ended is read in another way -/

variable {c : Char} {cs : List Char} {f : RawFunction} {x : Lexeme} {s : RawStatement} {t : Terminal}
  {fs fs' : List RawFunction}

theorem outcome_of_opens (h : ∀ t : Terminal, (t.isIgnored || r.accepts t) = true → t.opens c = false)
    (cs : List Char) : outcome r (c :: cs) = none :=
  outcome_of_none (List.cons_ne_nil c cs) (first?_eq_none h cs)

theorem exists_found (hne : cs ≠ []) (h : outcome r cs = some fs) : ∃ t, first? r.accepts cs = some t := by
  cases ht : first? r.accepts cs with
  | none =>
    rw [outcome_of_none hne ht] at h
    cases h
  | some t => exact ⟨t, rfl⟩

/-- At a character that is no blank and starts no comment, a token is found. -/
theorem found_of_solid (hc : isSpace c = false) (hcomment : commentWidth (c :: cs) = 0)
    (ht : first? r.accepts (c :: cs) = some t) :
    r.accepts t = true ∧ t.isIgnored = false ∧ t ≠ .newline ∧ t.opens c = true := by
  have hfound := List.find?_some ht
  obtain ⟨hlook, hpos⟩ := Bool.and_eq_true_iff.1 hfound
  have hpos : 0 < t.width (c :: cs) := of_decide_eq_true hpos
  have hopens := opens_of_width_pos hpos
  have hig : t.isIgnored = false := by
    cases t with
    | comment => exact absurd hcomment (Nat.ne_of_gt hpos)
    | blank => cases hc.symm.trans hopens
    | _ => rfl
  refine ⟨by rwa [hig, Bool.false_or] at hlook, hig, ?_, hopens⟩
  rintro rfl
  simp only [opens, Bool.or_eq_true, beq_iff_eq] at hopens
  rcases hopens with rfl | rfl <;> cases hc

theorem length_dropWhile_lt (p : Char → Bool) (hc : p c = true) (cs : List Char) :
    ((c :: cs).dropWhile p).length < (c :: cs).length := by
  rw [List.dropWhile_cons_of_pos hc, List.length_cons]
  exact Nat.lt_succ_of_le (List.dropWhile_suffix p).length_le

/-- Induction on a text in which blanks and comments are skipped. -/
theorem skip_induction {motive : List Char → Prop} (nil : motive [])
    (blank : ∀ c cs, isSpace c = true → motive ((c :: cs).dropWhile isSpace) → motive (c :: cs))
    (comment : ∀ c cs, 0 < commentWidth (c :: cs) → motive ((c :: cs).dropWhile (· ≠ '\n')) →
      motive (c :: cs))
    (solid : ∀ c cs, isSpace c = false → commentWidth (c :: cs) = 0 → motive (c :: cs))
    (cs : List Char) : motive cs := by
  induction hn : cs.length using Nat.strongRecOn generalizing cs with
  | ind n ih =>
    cases cs with
    | nil => exact nil
    | cons c cs =>
      rcases Nat.eq_zero_or_pos (commentWidth (c :: cs)) with hzero | hpos
      · cases hc : isSpace c with
        | true => exact blank c cs hc (ih _ (hn ▸ length_dropWhile_lt isSpace hc cs) _ rfl)
        | false => exact solid c cs hc hzero
      · have hc : decide (c ≠ '\n') = true := by
          refine decide_eq_true ?_
          rintro rfl
          exact Nat.lt_irrefl 0 hpos
        exact comment c cs hpos (ih _ (hn ▸ length_dropWhile_lt (· ≠ '\n') hc cs) _ rfl)

/-- Where a line is complete, blanks lead to the next line or are skipped. -/
theorem outcome_awaits (hq : AwaitsBreak q g) (d : List RawFunction) (cs : List Char) :
    outcome ⟨d, q⟩ cs = outcome ⟨d, .line g true⟩ (cs.dropWhile isSpace) ∨
      outcome ⟨d, q⟩ cs = outcome ⟨d, q⟩ (cs.dropWhile isSpace) := by
  by_cases h : newlineWidth cs = 0
  · exact .inr (outcome_spaces fun _ => h)
  · exact .inl (outcome_break (hq.closes d) (Nat.pos_of_ne_zero h))

/-- An equals sign follows a variable that starts a line, but no operand. -/
theorem outcome_assigning (d : List RawFunction) (f : RawFunction) (x : Lexeme) (cs : List Char) :
    outcome ⟨d, .assigning f x⟩ cs = none ∨
      ∀ d' f' s g, outcome ⟨d', .operand f' s⟩ cs = none ∧ outcome ⟨d', .line g true⟩ cs = none := by
  induction cs using skip_induction with
  | nil => exact .inl (outcome_nil _)
  | blank c cs hc ih =>
    rw [outcome_spaces (r := ⟨d, .assigning f x⟩) (fun h => by cases h)]
    refine ih.imp_right fun h d' f' s g => ⟨?_, ?_⟩
    · rcases outcome_awaits (.statement (.operand f' s)) d' (c :: cs) with heq | heq
      · rw [heq]
        exact (h d' f' s _).2
      · rw [heq]
        exact (h d' f' s g).1
    · rw [outcome_line]
      exact (h d' f' s g).2
  | comment c cs hcomment ih =>
    rw [outcome_comment hcomment]
    refine ih.imp_right fun h d' f' s g => ?_
    rw [outcome_comment hcomment, outcome_comment hcomment]
    exact h d' f' s g
  | solid c cs hc hcomment =>
    cases ht : first? (Reading.accepts ⟨d, .assigning f x⟩) (c :: cs) with
    | none => exact .inl (outcome_of_none (List.cons_ne_nil c cs) ht)
    | some t =>
      obtain ⟨haccepts, -, -, hopens⟩ := found_of_solid hc hcomment ht
      have ht : t = .equals := by cases t <;> first | rfl | cases haccepts
      subst ht
      obtain rfl : c = '=' := by simpa [opens] using hopens
      right
      intro d' f' s g
      constructor
      · exact outcome_of_opens (fun t h => by cases t <;> first | rfl | cases h) cs
      · exact outcome_of_opens (fun t h => by cases t <;> first | rfl | cases h) cs

/-- After a word that starts a line and after an operand, both lines go on only if they end, and then the
    first has as many more items as before. -/
theorem items_of_word_of_operand {f' : RawFunction} (h : outcome ⟨d, .word f x⟩ cs = some fs)
    (h' : outcome ⟨d, .operand f' s⟩ cs = some fs') :
    items fs + f'.body.length = items fs' + f.body.length := by
  induction cs using skip_induction with
  | nil =>
    rw [outcome_nil] at h
    cases h
  | blank c cs hc ih =>
    by_cases hbreak : newlineWidth (c :: cs) = 0
    · rw [outcome_spaces fun _ => hbreak] at h h'
      exact ih h h'
    · have hbreak := Nat.pos_of_ne_zero hbreak
      rw [outcome_break ((AwaitsBreak.statement (.word f x)).closes d) hbreak] at h
      rw [outcome_break ((AwaitsBreak.statement (.operand f' s)).closes d) hbreak] at h'
      obtain ⟨fs'', hfs, hitems⟩ := outcome_of_bare_eq ⟨d, .line (f'.push (.statement s)) true⟩ h rfl
      cases hfs.symm.trans h'
      simp only [Reading.items, State.items, RawFunction.push, List.length_append,
        List.length_singleton] at hitems
      omega
  | comment c cs hcomment ih =>
    rw [outcome_comment hcomment] at h h'
    exact ih h h'
  | solid c cs hc hcomment =>
    obtain ⟨t, ht⟩ := exists_found (List.cons_ne_nil c cs) h'
    obtain ⟨haccepts, -, hnewline, hopens⟩ := found_of_solid hc hcomment ht
    have ht : t = .comma := by
      cases t <;> first | rfl | exact absurd rfl hnewline | cases haccepts
    subst ht
    obtain rfl : c = ',' := by simpa [opens] using hopens
    rw [outcome_of_opens (fun t h => by cases t <;> first | rfl | cases h)] at h
    cases h

/-- At the start of a line and where an operand may come next, a variable is found, or a number that is read
    as a word at the start of a line. -/
theorem found_by_both (hq : AwaitsBreak q g) (hc : isSpace c = false) (hcomment : commentWidth (c :: cs) = 0)
    {t' : Terminal} (ht : first? (Reading.accepts ⟨d, .line g true⟩) (c :: cs) = some t)
    (ht' : first? (Reading.accepts ⟨d, q⟩) (c :: cs) = some t') :
    (∃ f s, Awaiting q f s ∧ g = f.push (.statement s)) ∧
      (t = .varName ∧ t' = .varName ∨ t = .word ∧ t' = .constant) := by
  obtain ⟨haccepts, -, hnewline, hopens⟩ := found_of_solid hc hcomment ht
  obtain ⟨haccepts', -, hnewline', hopens'⟩ := found_of_solid hc hcomment ht'
  have hline : t = .word ∨ t = .quoted ∨ t = .varName ∨ t = .rbrace := by
    cases t <;> first | decide | exact absurd rfl hnewline | cases haccepts
  have hsigns : t' = .colon ∨ t' = .mark ∨ t' = .comma → False := by
    intro hsigns
    rcases hsigns with rfl | rfl | rfl <;>
    · simp only [opens, beq_iff_eq] at hopens'
      subst hopens'
      rcases hline with rfl | rfl | rfl | rfl <;> cases hopens
  have hoperand : (∃ f s, Awaiting q f s ∧ g = f.push (.statement s)) ∧ (t' = .constant ∨ t' = .varName) := by
    cases hq with
    | label f x => cases t' <;> first | exact absurd rfl hnewline' | cases haccepts'
    | statement hends =>
      cases hends with
      | word f x =>
        refine ⟨⟨_, _, .word _ _, rfl⟩, ?_⟩
        cases t' <;>
          first | decide | exact absurd rfl hnewline' | exact (hsigns (by decide)).elim | cases haccepts'
      | opcode f s =>
        refine ⟨⟨_, _, .opcode _ _, rfl⟩, ?_⟩
        cases t' <;>
          first | decide | exact absurd rfl hnewline' | exact (hsigns (by decide)).elim | cases haccepts'
      | operand f s =>
        cases t' <;> first | exact absurd rfl hnewline' | exact (hsigns (by decide)).elim | cases haccepts'
      | copied f s => cases t' <;> first | exact absurd rfl hnewline' | cases haccepts'
  refine ⟨hoperand.1, ?_⟩
  rcases hoperand.2 with rfl | rfl
  · rcases hline with rfl | rfl | rfl | rfl
    · exact .inr ⟨rfl, rfl⟩
    all_goals
      simp only [opens, beq_iff_eq] at hopens
      subst hopens
      cases hopens'
  · simp only [opens, beq_iff_eq] at hopens'
    subst hopens'
    rcases hline with rfl | rfl | rfl | rfl
    · cases hopens
    · cases hopens
    · exact .inl ⟨rfl, rfl⟩
    · cases hopens

theorem Awaiting.step (h : Awaiting q f s) (d : List RawFunction) (x : Lexeme) :
    Reading.step ⟨d, q⟩ .constant x = some ⟨d, .operand f (s.push (.constant x))⟩ ∧
      Reading.step ⟨d, q⟩ .varName x = some ⟨d, .operand f (s.push (.variable x))⟩ := by
  cases h <;> exact ⟨rfl, rfl⟩

/-- A constant without a sign is the front of a word. -/
theorem constantWidth_le_run (hc : isWordChar c = true) :
    constantWidth (c :: cs) ≤ run isWordChar (c :: cs) := by
  rcases Nat.eq_zero_or_pos (constantWidth (c :: cs)) with hzero | hpos
  · omega
  · have hspells : Spells .constant ((c :: cs).take (constantWidth (c :: cs))) := spells_take_width hpos
    have hle := width_le_length .constant (c :: cs)
    have hall : ∀ e ∈ (c :: cs).take (constantWidth (c :: cs)), isWordChar e = true := by
      generalize hx : (c :: cs).take (constantWidth (c :: cs)) = x at hspells
      have hhead : x.head? = some c := by
        rw [← hx, List.head?_take, if_neg (Nat.ne_of_gt hpos)]
        rfl
      cases hspells with
      | hexadecimal hrun =>
        exact List.forall_mem_cons.2 ⟨rfl, List.forall_mem_cons.2
          ⟨rfl, fun e he => isWordChar_of_hexDigit? (hrun.2 e he)⟩⟩
      | natural hrun => exact fun e he => isWordChar_of_isDigit (hrun.2 e he)
      | positive hrun =>
        cases hhead
        cases hc
      | negative hrun =>
        cases hhead
        cases hc
    have hrun := le_run hall ((c :: cs).drop (constantWidth (c :: cs)))
    rw [List.take_append_drop, List.length_take] at hrun
    simp only [width] at hle
    omega

theorem exists_drop_of_lt_run {p : Char → Bool} {n : Nat} (h : n < run p cs) :
    ∃ e y, cs.drop n = e :: y ∧ p e = true := by
  induction cs generalizing n with
  | nil => cases h
  | cons c cs ih =>
    rw [run_cons] at h
    split at h
    · rename_i hc
      cases n with
      | zero => exact ⟨c, cs, rfl, hc⟩
      | succ n => exact ih (Nat.lt_of_succ_lt_succ h)
    · cases h

/-- After a constant that is only the front of a word, no line goes on. -/
theorem outcome_operand_of_word (hc : isWordChar c = true) (cs : List Char) :
    outcome ⟨d, .operand f s⟩ (c :: cs) = none := by
  have hne : ∀ e ∈ [';', '/', '#', '\n', '\r', ' ', '\t', '\x0c', ','], c ≠ e := by
    rintro e he rfl
    simp only [List.mem_cons, List.not_mem_nil, or_false] at he
    rcases he with rfl | rfl | rfl | rfl | rfl | rfl | rfl | rfl | rfl <;> cases hc
  simp only [List.forall_mem_cons, ne_eq] at hne
  refine outcome_of_opens (fun t h => ?_) cs
  cases t with
  | comment | newline | blank | comma => simp [opens, isSpace, hne]
  | _ => cases h

/-- The line after one that is not ended has other items, or cannot be read. -/
theorem items_ne (hq : AwaitsBreak q g) (hz : ∀ c cs, z = c :: cs → isSpace c = false)
    (hcomment : commentWidth z = 0) (h : outcome ⟨d, .line g true⟩ z = some fs)
    (h' : outcome ⟨d, q⟩ z = some fs') : items fs ≠ items fs' := by
  cases z with
  | nil =>
    rw [outcome_nil] at h
    cases h
  | cons c cs =>
    have hc := hz c cs rfl
    obtain ⟨t, ht⟩ := exists_found (List.cons_ne_nil c cs) h
    obtain ⟨t', ht'⟩ := exists_found (List.cons_ne_nil c cs) h'
    obtain ⟨⟨f, s, hawaiting, rfl⟩, hfound⟩ := found_by_both hq hc hcomment ht ht'
    rcases hfound with ⟨rfl, rfl⟩ | ⟨rfl, rfl⟩
    · rw [outcome_of_take ht rfl rfl] at h
      rw [outcome_of_take ht' rfl (hawaiting.step d _).2] at h'
      rcases outcome_assigning d _ _ _ with hnone | hnone
      · cases hnone.symm.trans h
      · cases (hnone _ _ _ (f.push (.statement s))).1.symm.trans h'
    · rw [outcome_of_take ht rfl rfl] at h
      rw [outcome_of_take ht' rfl (hawaiting.step d _).1] at h'
      have hword : isWordChar c = true := (found_of_solid hc hcomment ht).2.2.2
      have hle : Terminal.constant.width (c :: cs) ≤ Terminal.word.width (c :: cs) :=
        constantWidth_le_run hword
      rcases Nat.lt_or_eq_of_le hle with hlt | heq
      · obtain ⟨e, y, hdrop, he⟩ := exists_drop_of_lt_run hlt
        rw [hdrop, outcome_operand_of_word he] at h'
        cases h'
      · rw [heq] at h'
        have hitems := items_of_word_of_operand h h'
        simp only [RawFunction.push, List.length_append, List.length_singleton] at hitems
        omega

/-! ### Texts with blanks at the end of a line -/

/-- The line break comes right after a label or a statement, and what comes next is no comment. -/
def BreaksLine (a rest : List Char) : Prop :=
  EndsItem .start a rest ∧ commentWidth (rest.dropWhile isSpace) = 0

variable {a : List Char}

theorem read_padding (hw : IsRun isPadding w) (hrest : 0 < newlineWidth rest) (h : ¬BreaksLine a rest) :
    (read (a ++ (w ++ rest))).toOption = (read (a ++ rest)).toOption := by
  rcases outcome_padding hw hrest .start a with heq | ⟨⟨g, hg⟩, -⟩ | hends
  · exact heq
  · cases hg with
    | statement hends => cases hends
  · obtain ⟨d, q, g, hq, hplain, hpadded⟩ := hends.outcomes hw hrest
    have hcomment : 0 < commentWidth (rest.dropWhile isSpace) :=
      Nat.pos_of_ne_zero fun hzero => h ⟨hends, hzero⟩
    exact hpadded.trans ((outcome_of_comment hq hcomment).trans hplain.symm)

theorem items_ne_of_read (hw : IsRun isPadding w) (hrest : 0 < newlineWidth rest) (h : BreaksLine a rest)
    (hplain : read (a ++ rest) = .ok fs) (hpadded : read (a ++ (w ++ rest)) = .ok fs') :
    items fs ≠ items fs' := by
  obtain ⟨d, q, g, hq, houtcome, houtcome'⟩ := h.1.outcomes hw hrest
  refine items_ne hq (fun c cs => eq_false_of_dropWhile) h.2 (houtcome.symm.trans ?_) (houtcome'.symm.trans ?_)
  · rw [outcome, ← read, hplain]
    rfl
  · rw [outcome, ← read, hpadded]
    rfl

end ProgDep.Source

namespace ProgDep

open Source Source.Terminal

namespace Module

variable {n : Nat} {m : Module} {cs cs' : List Char}

theorem toOption_parse_congr (h : (read cs).toOption = (read cs').toOption) :
    (parse n (String.ofList cs)).toOption = (parse n (String.ofList cs')).toOption := by
  simp only [parse, String.toList_ofList]
  cases hcs : read cs with
  | error e =>
    cases hcs' : read cs' with
    | error e' => rfl
    | ok fs' =>
      rw [hcs, hcs'] at h
      cases h
  | ok fs =>
    cases hcs' : read cs' with
    | error e' =>
      rw [hcs, hcs'] at h
      cases h
    | ok fs' =>
      rw [hcs, hcs'] at h
      cases h
      rfl

theorem length_body_of_read {f : RawFunction} {d : Declaration} (h : f.read = .ok d) :
    f.body.length = d.body.length := by
  obtain ⟨name, _, h⟩ := bind_eq_ok_iff.1 h
  obtain ⟨body, hbody, h⟩ := bind_eq_ok_iff.1 h
  cases h
  exact (mapM_eq_ok_iff.1 hbody).length_eq

theorem map_length_body_of_read {fs : List RawFunction} {ds : List Declaration}
    (h : List.Forall₂ (fun f d => RawFunction.read f = .ok d) fs ds) :
    fs.map (·.body.length) = ds.map (·.body.length) := by
  induction h with
  | nil => rfl
  | cons hread _ ih => rw [List.map_cons, List.map_cons, length_body_of_read hread, ih]

/-- A module has the items of the text that it is read from. -/
theorem items_of_parse (h : parse n (String.ofList cs) = .ok m) : ∃ fs, read cs = .ok fs ∧
    items fs = (m.functions.map fun f => f.declaration.body.length).sum := by
  obtain ⟨fs, hfs, h⟩ := bind_eq_ok_iff.1 h
  obtain ⟨ds, hds, h⟩ := bind_eq_ok_iff.1 h
  rw [String.toList_ofList, mapError_eq_ok_iff] at hfs
  rw [mapError_eq_ok_iff, mapM_eq_ok_iff] at hds
  refine ⟨fs, hfs, ?_⟩
  rw [items, map_length_body_of_read hds, ← (functions_ofDeclarations h).1, List.map_map]
  rfl

/-- Spaces and tabs before a line break make no difference unless the line break comes right after a label or a
    statement and no comment comes next. There the two texts are never both read as one module. -/
theorem parse_padding {a w rest : List Char} (hw : IsRun isPadding w) (hrest : 0 < newlineWidth rest)
    (n : Nat) :
    (¬BreaksLine a rest → (parse n (String.ofList (a ++ (w ++ rest)))).toOption =
      (parse n (String.ofList (a ++ rest))).toOption) ∧
    (BreaksLine a rest → ∀ m, parse n (String.ofList (a ++ rest)) = .ok m →
      parse n (String.ofList (a ++ (w ++ rest))) ≠ .ok m) := by
  constructor
  · intro h
    exact toOption_parse_congr (read_padding hw hrest h)
  · intro h m hplain hpadded
    obtain ⟨fs, hfs, hitems⟩ := items_of_parse hplain
    obtain ⟨fs', hfs', hitems'⟩ := items_of_parse hpadded
    exact items_ne_of_read hw hrest h hfs hfs' (hitems.trans hitems'.symm)

end Module

/-! ### Examples -/

namespace Telegram

/-- The text before the line break after the first statement. -/
def opening : List Char := "function telegram \x7b\nwire:\n  beep".toList

/-- A line of its own follows. -/
def line : List Char := "\n  stop\n\x7d".toList

/-- A comment follows. -/
def note : List Char := "\n  ; over\n  stop\n\x7d".toList

/-- A number follows, which is an opcode on a line of its own. -/
def number : List Char := "\n  5\n\x7d".toList

def home : FunctionId := ⟨0, ⟨.ofString "telegram", by decide⟩⟩

def wire : BlockId := ⟨⟨.ofString "wire", by decide⟩, home⟩

/-- The module of one block with the given instructions. -/
def program (body : List Instruction) : Module where
  functions :=
    [{  id := home
        blocks := [⟨wire, body⟩]
        lastVariable := 0
        labels_nodup := List.nodup_singleton _ }]
  names_nodup := List.nodup_singleton _

def beep : Instruction := ⟨"beep", [], none, none⟩

def stop : Instruction := ⟨"stop", [], none, none⟩

theorem parse_line : Module.parse 0 (String.ofList (opening ++ line)) = .ok (program [beep, stop]) := by
  rw [Module.parse, String.toList_ofList, read_eq_scanWithin]
  rfl

theorem parse_note : Module.parse 0 (String.ofList (opening ++ note)) = .ok (program [beep, stop]) := by
  rw [Module.parse, String.toList_ofList, read_eq_scanWithin]
  rfl

theorem parse_padded_line : (Module.parse 0 (String.ofList (opening ++ ([' '] ++ line)))).toOption = none := by
  rw [Module.parse, String.toList_ofList, read_eq_scanWithin]
  rfl

theorem parse_padded_note :
    Module.parse 0 (String.ofList (opening ++ ([' '] ++ note))) = .ok (program [beep, stop]) := by
  rw [Module.parse, String.toList_ofList, read_eq_scanWithin]
  rfl

end Telegram

/-- A statement is complete before the line break, but it is ended in time if a comment comes next. -/
theorem Module.parse_padding_telegram :
    BreaksLine Telegram.opening Telegram.line ∧ ¬BreaksLine Telegram.opening Telegram.note := by
  have hw : IsRun isPadding [' '] := ⟨by decide, List.all_eq_true.1 rfl⟩
  constructor
  · by_contra h
    have heq := (parse_padding hw (by decide) 0).1 h
    rw [Telegram.parse_padded_line, Telegram.parse_line] at heq
    cases heq
  · intro h
    exact (parse_padding hw (by decide) 0).2 h _ Telegram.parse_note Telegram.parse_padded_note

/-- A blank after a statement makes a text unreadable, or joins the statement and a number on the next line. -/
theorem Module.padding_changes_module :
    parse 0 (String.ofList (Telegram.opening ++ Telegram.line)) =
      .ok (Telegram.program [Telegram.beep, Telegram.stop]) ∧
    (parse 0 (String.ofList (Telegram.opening ++ ([' '] ++ Telegram.line)))).toOption = none ∧
    parse 0 (String.ofList (Telegram.opening ++ Telegram.number)) =
      .ok (Telegram.program [Telegram.beep, ⟨"5", [], none, none⟩]) ∧
    parse 0 (String.ofList (Telegram.opening ++ ([' '] ++ Telegram.number))) =
      .ok (Telegram.program [⟨"beep", [.lit 5], none, none⟩]) := by
  refine ⟨Telegram.parse_line, Telegram.parse_padded_line, ?_, ?_⟩
  · rw [parse, String.toList_ofList, read_eq_scanWithin]
    rfl
  · rw [parse, String.toList_ofList, read_eq_scanWithin]
    rfl

end ProgDep
