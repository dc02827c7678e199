import ProgDep.Proofs.Lexeme
import ProgDep.Source.Parse

/-! The language of program texts. The grammar is a family of relations, one per rule, between tokens and
    what they write. The machine reads exactly the sentences of the grammar: each derivation drives it to
    its end (`feed`), and what it has read at any time is the front of a derivation (`Reads`), which can
    always be finished. So the terminals that it accepts are those with which some sentence goes on, and
    a text is read exactly when taking, again and again, the first such terminal that is there consumes
    it and leaves a sentence. -/

namespace ProgDep.Source

/-- A terminal and its characters. -/
structure Token where
  terminal : Terminal
  lexeme : Lexeme
  deriving DecidableEq, Repr

/-! ### The rules of the grammar -/

/-- A name is a word or a quoted text. -/
inductive IsName : List Token → Lexeme → Prop
  | word (x : Lexeme) : IsName [⟨.word, x⟩] x
  | quoted (x : Lexeme) : IsName [⟨.quoted, x⟩] x

/-- Line breaks, at least one. -/
inductive IsNewlines : List Token → Prop
  | one (x : Lexeme) : IsNewlines [⟨.newline, x⟩]
  | more (x : Lexeme) {ts : List Token} : IsNewlines ts → IsNewlines (⟨.newline, x⟩ :: ts)

/-- An operand is a variable, a constant or a name after an at sign. -/
inductive IsOperand : List Token → RawOperand → Prop
  | var (x : Lexeme) : IsOperand [⟨.varName, x⟩] (.variable x)
  | constant (x : Lexeme) : IsOperand [⟨.constant, x⟩] (.constant x)
  | target (m : Lexeme) {ts : List Token} {x : Lexeme} : IsName ts x →
      IsOperand (⟨.mark, m⟩ :: ts) (.target x)

/-- Operands with commas between them, at least one. -/
inductive IsOperands : List Token → List RawOperand → Prop
  | one {ts : List Token} {o : RawOperand} : IsOperand ts o → IsOperands ts [o]
  | more (c : Lexeme) {ts us : List Token} {o : RawOperand} {os : List RawOperand} :
      IsOperand ts o → IsOperands us os → IsOperands (ts ++ ⟨.comma, c⟩ :: us) (o :: os)

/-- An instruction is an opcode, with or without operands. -/
inductive IsInstruction : List Token → Lexeme → List RawOperand → Prop
  | bare (x : Lexeme) : IsInstruction [⟨.word, x⟩] x []
  | operands (x : Lexeme) {ts : List Token} {os : List RawOperand} :
      IsOperands ts os → IsInstruction (⟨.word, x⟩ :: ts) x os

/-- A statement is an instruction, or assigns the value of an instruction or of an operand. -/
inductive IsStatement : List Token → RawStatement → Prop
  | instruction {ts : List Token} {x : Lexeme} {os : List RawOperand} :
      IsInstruction ts x os → IsStatement ts ⟨none, some x, os⟩
  | assignment (v e : Lexeme) {ts : List Token} {x : Lexeme} {os : List RawOperand} :
      IsInstruction ts x os → IsStatement (⟨.varName, v⟩ :: ⟨.equals, e⟩ :: ts) ⟨some v, some x, os⟩
  | copy (v e : Lexeme) {ts : List Token} {o : RawOperand} :
      IsOperand ts o → IsStatement (⟨.varName, v⟩ :: ⟨.equals, e⟩ :: ts) ⟨some v, none, [o]⟩

/-- One line of a body, with the line breaks after it. -/
inductive IsItem : List Token → RawItem → Prop
  | label (c : Lexeme) {ts us : List Token} {x : Lexeme} :
      IsName ts x → IsNewlines us → IsItem (ts ++ ⟨.colon, c⟩ :: us) (.label x)
  | statement {ts us : List Token} {s : RawStatement} :
      IsStatement ts s → IsNewlines us → IsItem (ts ++ us) (.statement s)

/-- The lines of a body. -/
inductive IsBody : List Token → List RawItem → Prop
  | nil : IsBody [] []
  | cons {ts us : List Token} {i : RawItem} {is : List RawItem} :
      IsItem ts i → IsBody us is → IsBody (ts ++ us) (i :: is)

/-- A function with its name and body. -/
inductive IsFunction : List Token → RawFunction → Prop
  | mk (k b e : Lexeme) {ts us : List Token} {x : Lexeme} {is : List RawItem} :
      IsName ts x → IsBody us is →
      IsFunction (⟨.function, k⟩ :: (ts ++ ⟨.lbrace, b⟩ :: (us ++ [⟨.rbrace, e⟩]))) ⟨x, is⟩

/-- The sentences of the grammar: functions one after the other. -/
inductive IsModule : List Token → List RawFunction → Prop
  | nil : IsModule [] []
  | cons {ts us : List Token} {f : RawFunction} {fs : List RawFunction} :
      IsFunction ts f → IsModule us fs → IsModule (ts ++ us) (f :: fs)

/-! ### The machine reads every sentence -/

namespace Reading

variable {r r' : Reading} {ts us : List Token} {d fs : List RawFunction} {f : RawFunction}
  {s : RawStatement} {o : RawOperand} {os : List RawOperand} {x v : Lexeme}

/-- Reads several tokens. -/
def feed (r : Reading) (ts : List Token) : Option Reading :=
  ts.foldlM (fun r t => r.step t.terminal t.lexeme) r

theorem feed_cons (r : Reading) (t : Token) (ts : List Token) :
    r.feed (t :: ts) = (r.step t.terminal t.lexeme).bind (·.feed ts) := by
  rw [feed, List.foldlM_cons]
  rfl

theorem feed_append (r : Reading) (ts us : List Token) :
    r.feed (ts ++ us) = (r.feed ts).bind (·.feed us) := by
  rw [feed, List.foldlM_append]
  rfl

theorem feed_append_of_eq (h : r.feed ts = some r') (us : List Token) :
    r.feed (ts ++ us) = r'.feed us := by
  rw [feed_append, h]
  rfl

/-- A line break completes a line, and the function under way is then `f`. -/
def Closes (r : Reading) (d : List RawFunction) (f : RawFunction) : Prop :=
  ∀ x, r.step .newline x = some ⟨d, .line f true⟩

theorem feed_newlines (hr : r.Closes d f) (h : IsNewlines ts) : r.feed ts = some ⟨d, .line f true⟩ := by
  induction h generalizing r with
  | one x => rw [feed_cons, hr]; rfl
  | more x _ ih =>
    rw [feed_cons, hr]
    exact ih fun y => rfl

theorem feed_operand (h : IsOperand ts o) :
    feed ⟨d, .comma f s⟩ ts = some ⟨d, .operand f (s.push o)⟩ := by
  cases h with
  | var x => rfl
  | constant x => rfl
  | target m hn => cases hn <;> rfl

theorem feed_operands (h : IsOperands ts os) :
    feed ⟨d, .comma f s⟩ ts = some ⟨d, .operand f { s with operands := s.operands ++ os }⟩ := by
  induction h generalizing s with
  | one ho => exact feed_operand ho
  | @more c ts us o os ho _ ih =>
    rw [feed_append_of_eq (feed_operand ho), feed_cons]
    show feed ⟨d, .comma f (s.push o)⟩ us = _
    rw [ih, RawStatement.push, List.append_assoc]
    rfl

/-- The terminals that start an operand. -/
def startsOperand : Terminal → Bool
  | .constant | .varName | .mark => true
  | _ => false

/-- Operands are read after an opcode as they are after a comma. -/
theorem feed_operands_of_step (h : IsOperands ts os)
    (hstep : ∀ t x, startsOperand t = true → r.step t x = r'.step t x) : r.feed ts = r'.feed ts := by
  have hfirst : ∃ t us, ts = t :: us ∧ startsOperand t.terminal = true := by
    cases h with
    | one ho => cases ho <;> exact ⟨_, _, rfl, rfl⟩
    | more c ho _ => cases ho <;> exact ⟨_, _, rfl, rfl⟩
  obtain ⟨t, us, rfl, ht⟩ := hfirst
  rw [feed_cons, feed_cons, hstep t.terminal t.lexeme ht]

theorem exists_feed_instruction (b : Bool) (h : IsInstruction ts x os) :
    ∃ r, feed ⟨d, .line f b⟩ ts = some r ∧ r.Closes d (f.push (.statement ⟨none, some x, os⟩)) := by
  cases h with
  | bare => exact ⟨⟨d, .word f x⟩, by cases b <;> rfl, fun _ => rfl⟩
  | @operands _ ts _ ho =>
    refine ⟨⟨d, .operand f ⟨none, some x, os⟩⟩, ?_, fun _ => rfl⟩
    have hstep : ∀ t y, startsOperand t = true →
        step ⟨d, .word f x⟩ t y = step ⟨d, .comma f ⟨none, some x, []⟩⟩ t y := by
      intro t y ht
      cases t <;> first | rfl | cases ht
    calc feed ⟨d, .line f b⟩ (⟨.word, x⟩ :: ts)
        = feed ⟨d, .word f x⟩ ts := by cases b <;> rfl
      _ = feed ⟨d, .comma f ⟨none, some x, []⟩⟩ ts := feed_operands_of_step ho hstep
      _ = some ⟨d, .operand f ⟨none, some x, os⟩⟩ := feed_operands ho

theorem exists_feed_assignment (h : IsInstruction ts x os) :
    ∃ r, feed ⟨d, .assigned f v⟩ ts = some r ∧
      r.Closes d (f.push (.statement ⟨some v, some x, os⟩)) := by
  cases h with
  | bare => exact ⟨⟨d, .opcode f ⟨some v, some x, []⟩⟩, rfl, fun _ => rfl⟩
  | @operands _ ts _ ho =>
    refine ⟨⟨d, .operand f ⟨some v, some x, os⟩⟩, ?_, fun _ => rfl⟩
    have hstep : ∀ t y, startsOperand t = true →
        step ⟨d, .opcode f ⟨some v, some x, []⟩⟩ t y =
          step ⟨d, .comma f ⟨some v, some x, []⟩⟩ t y := by
      intro t y ht
      cases t <;> first | rfl | cases ht
    calc feed ⟨d, .assigned f v⟩ (⟨.word, x⟩ :: ts)
        = feed ⟨d, .opcode f ⟨some v, some x, []⟩⟩ ts := rfl
      _ = feed ⟨d, .comma f ⟨some v, some x, []⟩⟩ ts := feed_operands_of_step ho hstep
      _ = some ⟨d, .operand f ⟨some v, some x, os⟩⟩ := feed_operands ho

theorem exists_feed_copy (h : IsOperand ts o) :
    ∃ r, feed ⟨d, .assigned f v⟩ ts = some r ∧ r.Closes d (f.push (.statement ⟨some v, none, [o]⟩)) := by
  refine ⟨⟨d, .copied f ⟨some v, none, [o]⟩⟩, ?_, fun _ => rfl⟩
  cases h with
  | var x => rfl
  | constant x => rfl
  | target m hn => cases hn <;> rfl

theorem exists_feed_statement (b : Bool) (h : IsStatement ts s) :
    ∃ r, feed ⟨d, .line f b⟩ ts = some r ∧ r.Closes d (f.push (.statement s)) := by
  have hequals : ∀ v e us, feed ⟨d, .line f b⟩ (⟨.varName, v⟩ :: ⟨.equals, e⟩ :: us) =
      feed ⟨d, .assigned f v⟩ us := by
    intro v e us
    cases b <;> rfl
  cases h with
  | instruction hi => exact exists_feed_instruction b hi
  | assignment v e hi =>
    rw [hequals]
    exact exists_feed_assignment hi
  | copy v e ho =>
    rw [hequals]
    exact exists_feed_copy ho

theorem feed_item {i : RawItem} (b : Bool) (h : IsItem ts i) :
    feed ⟨d, .line f b⟩ ts = some ⟨d, .line (f.push i) true⟩ := by
  cases h with
  | @label c ts us x hn hnew =>
    have hcolon : feed ⟨d, .line f b⟩ (ts ++ [⟨.colon, c⟩]) = some ⟨d, .labelled f x⟩ := by
      cases hn <;> cases b <;> rfl
    rw [List.append_cons, feed_append_of_eq hcolon]
    exact feed_newlines (fun _ => rfl) hnew
  | statement hs hnew =>
    obtain ⟨r, hr, hcloses⟩ := exists_feed_statement b hs
    rw [feed_append_of_eq hr]
    exact feed_newlines hcloses hnew

theorem exists_feed_body {is : List RawItem} (b : Bool) (h : IsBody ts is) :
    ∃ b', feed ⟨d, .line f b⟩ ts = some ⟨d, .line { f with body := f.body ++ is } b'⟩ := by
  induction h generalizing f b with
  | nil => exact ⟨b, by rw [List.append_nil]; rfl⟩
  | @cons ts us i is hi _ ih =>
    obtain ⟨b', hfeed⟩ := ih (f := f.push i) true
    refine ⟨b', ?_⟩
    rw [feed_append_of_eq (feed_item b hi), hfeed, RawFunction.push, List.append_assoc]
    rfl

theorem feed_function (h : IsFunction ts f) : feed ⟨d, .outside⟩ ts = some ⟨d ++ [f], .outside⟩ := by
  cases h with
  | @mk k b e ts us x is hn hbody =>
    have hopen : feed ⟨d, .outside⟩ (⟨.function, k⟩ :: (ts ++ [⟨.lbrace, b⟩])) =
        some ⟨d, .line ⟨x, []⟩ false⟩ := by
      cases hn <;> rfl
    obtain ⟨b', hfeed⟩ := exists_feed_body (d := d) (f := ⟨x, []⟩) false hbody
    have happend : (⟨.function, k⟩ :: (ts ++ ⟨.lbrace, b⟩ :: (us ++ [⟨.rbrace, e⟩])) : List Token) =
        (⟨.function, k⟩ :: (ts ++ [⟨.lbrace, b⟩])) ++ (us ++ [⟨.rbrace, e⟩]) := by simp
    rw [happend, feed_append_of_eq hopen, feed_append_of_eq hfeed]
    rfl

/-- A derivation drives the machine to its end. -/
theorem feed_module (h : IsModule ts fs) : feed ⟨d, .outside⟩ ts = some ⟨d ++ fs, .outside⟩ := by
  induction h generalizing d with
  | nil => rw [List.append_nil]; rfl
  | cons hf _ ih => rw [feed_append_of_eq (feed_function hf), ih, List.append_assoc]; rfl

end Reading

/-! ### What one token does -/

/-- The states in which the statement under way may have one more operand. -/
inductive Awaiting : State → RawFunction → RawStatement → Prop
  | word (f : RawFunction) (x : Lexeme) : Awaiting (.word f x) f ⟨none, some x, []⟩
  | opcode (f : RawFunction) (s : RawStatement) : Awaiting (.opcode f s) f s
  | comma (f : RawFunction) (s : RawStatement) : Awaiting (.comma f s) f s

/-- The states in which the statement under way may end. -/
inductive Ending : State → RawFunction → RawStatement → Prop
  | word (f : RawFunction) (x : Lexeme) : Ending (.word f x) f ⟨none, some x, []⟩
  | opcode (f : RawFunction) (s : RawStatement) : Ending (.opcode f s) f s
  | operand (f : RawFunction) (s : RawStatement) : Ending (.operand f s) f s
  | copied (f : RawFunction) (s : RawStatement) : Ending (.copied f s) f s

/-- The moves of the machine by one token, but for the brace that ends a function. -/
inductive Moves : State → Terminal → Lexeme → State → Prop
  | function {x} : Moves .outside .function x .naming
  | name {t x} : IsName [⟨t, x⟩] x → Moves .naming t x (.named x)
  | lbrace {n x} : Moves (.named n) .lbrace x (.line ⟨n, []⟩ false)
  | word {f b x} : Moves (.line f b) .word x (.word f x)
  | quoted {f b x} : Moves (.line f b) .quoted x (.quoted f x)
  | assigning {f b x} : Moves (.line f b) .varName x (.assigning f x)
  | newline {f x} : Moves (.line f true) .newline x (.line f true)
  | wordLabel {f n x} : Moves (.word f n) .colon x (.labelled f n)
  | quotedLabel {f n x} : Moves (.quoted f n) .colon x (.labelled f n)
  | label {f n x} : Moves (.labelled f n) .newline x (.line (f.push (.label n)) true)
  | equals {f v x} : Moves (.assigning f v) .equals x (.assigned f v)
  | opcode {f v x} : Moves (.assigned f v) .word x (.opcode f ⟨some v, some x, []⟩)
  | copy {f v t x o} : IsOperand [⟨t, x⟩] o →
      Moves (.assigned f v) t x (.copied f ⟨some v, none, [o]⟩)
  | copyMark {f v x} : Moves (.assigned f v) .mark x (.copyMark f v)
  | copyTarget {f v t x} : IsName [⟨t, x⟩] x →
      Moves (.copyMark f v) t x (.copied f ⟨some v, none, [.target x]⟩)
  | operand {q f s t x o} : Awaiting q f s → IsOperand [⟨t, x⟩] o →
      Moves q t x (.operand f (s.push o))
  | mark {q f s x} : Awaiting q f s → Moves q .mark x (.mark f s)
  | target {f s t x} : IsName [⟨t, x⟩] x → Moves (.mark f s) t x (.operand f (s.push (.target x)))
  | comma {f s x} : Moves (.operand f s) .comma x (.comma f s)
  | close {q f s x} : Ending q f s → Moves q .newline x (.close f s)

section moves

variable {q q' : State} {r r' : Reading} {t : Terminal} {x : Lexeme}

/-- The machine makes no other moves. -/
theorem moves_of_step (h : q.step t x = some q') : Moves q t x q' := by
  -- all but the terminals that may come next are ruled out; these stay in the order of their declaration
  cases q with
  | outside =>
    cases t <;> cases h
    exact .function
  | naming =>
    cases t <;> cases h
    · exact .name (.word x)
    · exact .name (.quoted x)
  | named n =>
    cases t <;> cases h
    exact .lbrace
  | line f b =>
    cases b
    · cases t <;> cases h
      · exact .assigning
      · exact .word
      · exact .quoted
    · cases t <;> cases h
      · exact .assigning
      · exact .word
      · exact .quoted
      · exact .newline
  | word f n =>
    cases t <;> cases h
    · exact .operand (.word f n) (.constant x)
    · exact .operand (.word f n) (.var x)
    · exact .close (.word f n)
    · exact .mark (.word f n)
    · exact .wordLabel
  | quoted f n =>
    cases t <;> cases h
    exact .quotedLabel
  | labelled f n =>
    cases t <;> cases h
    exact .label
  | assigning f v =>
    cases t <;> cases h
    exact .equals
  | assigned f v =>
    cases t <;> cases h
    · exact .copy (.constant x)
    · exact .copy (.var x)
    · exact .opcode
    · exact .copyMark
  | copyMark f v =>
    cases t <;> cases h
    · exact .copyTarget (.word x)
    · exact .copyTarget (.quoted x)
  | opcode f s =>
    cases t <;> cases h
    · exact .operand (.opcode f s) (.constant x)
    · exact .operand (.opcode f s) (.var x)
    · exact .close (.opcode f s)
    · exact .mark (.opcode f s)
  | mark f s =>
    cases t <;> cases h
    · exact .target (.word x)
    · exact .target (.quoted x)
  | operand f s =>
    cases t <;> cases h
    · exact .close (.operand f s)
    · exact .comma
  | comma f s =>
    cases t <;> cases h
    · exact .operand (.comma f s) (.constant x)
    · exact .operand (.comma f s) (.var x)
    · exact .mark (.comma f s)
  | copied f s =>
    cases t <;> cases h
    exact .close (.copied f s)

/-- A token ends a function or moves the state only. -/
theorem Reading.step_cases (h : r.step t x = some r') :
    (∃ f b, t = .rbrace ∧ r.state = .line f b ∧ r' = ⟨r.done ++ [f], .outside⟩) ∨
    ∃ q, Moves r.state t x q ∧ r' = ⟨r.done, q⟩ := by
  rw [Reading.step.eq_def] at h
  split at h
  · rename_i f b hline
    cases h
    exact Or.inl ⟨f, b, rfl, hline, rfl⟩
  · obtain ⟨q, hq, rfl⟩ := Option.map_eq_some_iff.1 h
    exact Or.inr ⟨q, moves_of_step hq, rfl⟩

end moves

/-! ### What has been read is the front of a derivation -/

section fronts

variable {ts us : List Token} {d fs : List RawFunction} {f : RawFunction} {s : RawStatement}
  {o : RawOperand} {os : List RawOperand} {i : RawItem} {is : List RawItem} {x : Lexeme}

theorem IsNewlines.snoc (h : IsNewlines ts) (x : Lexeme) : IsNewlines (ts ++ [⟨.newline, x⟩]) := by
  induction h with
  | one y => exact .more y (.one x)
  | more y _ ih => exact .more y ih

theorem IsOperands.snoc (h : IsOperands ts os) (c : Lexeme) (ho : IsOperand us o) :
    IsOperands (ts ++ ⟨.comma, c⟩ :: us) (os ++ [o]) := by
  induction h with
  | one ho' => exact .more c ho' (.one ho)
  | @more c' ts us' o' os ho' _ ih =>
    rw [List.append_assoc, List.cons_append]
    exact .more c' ho' ih

/-- A further line break belongs to the item before it. -/
theorem IsItem.newline (h : IsItem ts i) (x : Lexeme) : IsItem (ts ++ [⟨.newline, x⟩]) i := by
  cases h with
  | label c hn hnew =>
    rw [List.append_assoc, List.cons_append]
    exact .label c hn (hnew.snoc x)
  | statement hs hnew =>
    rw [List.append_assoc]
    exact .statement hs (hnew.snoc x)

theorem IsBody.snoc (h : IsBody ts is) (hi : IsItem us i) : IsBody (ts ++ us) (is ++ [i]) := by
  induction h with
  | nil =>
    have hbody := IsBody.cons hi .nil
    rwa [List.append_nil] at hbody
  | cons hi' _ ih =>
    rw [List.append_assoc]
    exact .cons hi' ih

theorem IsBody.newline (h : IsBody ts is) (hne : is ≠ []) (x : Lexeme) :
    IsBody (ts ++ [⟨.newline, x⟩]) is := by
  induction h with
  | nil => exact absurd rfl hne
  | @cons ts us i is hi hbody ih =>
    rw [List.append_assoc]
    cases is with
    | nil =>
      cases hbody
      have hbody := IsBody.cons (hi.newline x) .nil
      rwa [List.append_assoc] at hbody
    | cons j is => exact .cons hi (ih (List.cons_ne_nil j is))

theorem IsModule.snoc (h : IsModule ts fs) (hf : IsFunction us f) : IsModule (ts ++ us) (fs ++ [f]) := by
  induction h with
  | nil =>
    have hmodule := IsModule.cons hf .nil
    rwa [List.append_nil] at hmodule
  | cons hf' _ ih =>
    rw [List.append_assoc]
    exact .cons hf' ih

/-- The tokens of complete functions `d` and of the function `f` under way, up to the end of a line. -/
inductive Opened : List Token → List RawFunction → RawFunction → Prop
  | mk (k b : Lexeme) {ts ns bs : List Token} {d : List RawFunction} {f : RawFunction} :
      IsModule ts d → IsName ns f.name → IsBody bs f.body →
      Opened (ts ++ ⟨.function, k⟩ :: (ns ++ ⟨.lbrace, b⟩ :: bs)) d f

theorem Opened.push (h : Opened ts d f) (hi : IsItem us i) : Opened (ts ++ us) d (f.push i) := by
  cases h with
  | mk k b hd hn hbody =>
    have hopened := Opened.mk k b hd hn (f := f.push i) (hbody.snoc hi)
    simpa using hopened

theorem Opened.newline (h : Opened ts d f) (hne : f.body ≠ []) (x : Lexeme) :
    Opened (ts ++ [⟨.newline, x⟩]) d f := by
  cases h with
  | mk k b hd hn hbody =>
    have hopened := Opened.mk k b hd hn (hbody.newline hne x)
    simpa using hopened

theorem Opened.close (h : Opened ts d f) (e : Lexeme) : IsModule (ts ++ [⟨.rbrace, e⟩]) (d ++ [f]) := by
  cases h with
  | mk k b hd hn hbody =>
    have hmodule := hd.snoc (.mk k b e hn hbody)
    simpa using hmodule

/-- A statement up to its opcode. -/
inductive IsHead : List Token → RawStatement → Prop
  | instruction (x : Lexeme) : IsHead [⟨.word, x⟩] ⟨none, some x, []⟩
  | assignment (v e x : Lexeme) :
      IsHead [⟨.varName, v⟩, ⟨.equals, e⟩, ⟨.word, x⟩] ⟨some v, some x, []⟩

/-- A statement up to one of its operands. -/
inductive IsListing : List Token → RawStatement → Prop
  | mk {ts us : List Token} {s : RawStatement} {os : List RawOperand} :
      IsHead ts s → IsOperands us os → IsListing (ts ++ us) { s with operands := os }

/-- A statement up to a place at which an operand may stand. -/
inductive Awaits : List Token → RawStatement → Prop
  | head {ts : List Token} {s : RawStatement} : IsHead ts s → Awaits ts s
  | comma (c : Lexeme) {ts : List Token} {s : RawStatement} :
      IsListing ts s → Awaits (ts ++ [⟨.comma, c⟩]) s

theorem Awaits.operand (h : Awaits ts s) (ho : IsOperand us o) : IsListing (ts ++ us) (s.push o) := by
  cases h with
  | head hhead => cases hhead <;> exact .mk (by constructor) (.one ho)
  | comma c hlist =>
    cases hlist with
    | mk hhead hos =>
      have hlisting := IsListing.mk hhead (hos.snoc c ho)
      simpa [RawStatement.push] using hlisting

theorem IsHead.isStatement (h : IsHead ts s) : IsStatement ts s := by
  cases h with
  | instruction x => exact .instruction (.bare x)
  | assignment v e x => exact .assignment v e (.bare x)

theorem IsListing.isStatement (h : IsListing ts s) : IsStatement ts s := by
  cases h with
  | mk hhead hos =>
    cases hhead with
    | instruction x => exact .instruction (.operands x hos)
    | assignment v e x => exact .assignment v e (.operands x hos)

theorem Opened.statement (h : Opened ts d f) (hs : IsStatement us s) (x : Lexeme) :
    Opened (ts ++ us ++ [⟨.newline, x⟩]) d (f.push (.statement s)) := by
  rw [List.append_assoc]
  exact h.push (.statement hs (.one x))

/-- The tokens that bring the machine to where it is. -/
inductive Reads : List Token → Reading → Prop
  | outside {ts : List Token} {d : List RawFunction} : IsModule ts d → Reads ts ⟨d, .outside⟩
  | naming (k : Lexeme) {ts : List Token} {d : List RawFunction} :
      IsModule ts d → Reads (ts ++ [⟨.function, k⟩]) ⟨d, .naming⟩
  | named (k : Lexeme) {ts ns : List Token} {d : List RawFunction} {x : Lexeme} :
      IsModule ts d → IsName ns x → Reads (ts ++ ⟨.function, k⟩ :: ns) ⟨d, .named x⟩
  | line {ts : List Token} {d : List RawFunction} {f : RawFunction} {b : Bool} :
      Opened ts d f → (b = true → f.body ≠ []) → Reads ts ⟨d, .line f b⟩
  | word (x : Lexeme) {ts : List Token} {d : List RawFunction} {f : RawFunction} :
      Opened ts d f → Reads (ts ++ [⟨.word, x⟩]) ⟨d, .word f x⟩
  | quoted (x : Lexeme) {ts : List Token} {d : List RawFunction} {f : RawFunction} :
      Opened ts d f → Reads (ts ++ [⟨.quoted, x⟩]) ⟨d, .quoted f x⟩
  | labelled (c : Lexeme) {ts ns : List Token} {d : List RawFunction} {f : RawFunction} {x : Lexeme} :
      Opened ts d f → IsName ns x → Reads (ts ++ ns ++ [⟨.colon, c⟩]) ⟨d, .labelled f x⟩
  | assigning (v : Lexeme) {ts : List Token} {d : List RawFunction} {f : RawFunction} :
      Opened ts d f → Reads (ts ++ [⟨.varName, v⟩]) ⟨d, .assigning f v⟩
  | assigned (v e : Lexeme) {ts : List Token} {d : List RawFunction} {f : RawFunction} :
      Opened ts d f → Reads (ts ++ [⟨.varName, v⟩, ⟨.equals, e⟩]) ⟨d, .assigned f v⟩
  | copyMark (v e m : Lexeme) {ts : List Token} {d : List RawFunction} {f : RawFunction} :
      Opened ts d f → Reads (ts ++ [⟨.varName, v⟩, ⟨.equals, e⟩, ⟨.mark, m⟩]) ⟨d, .copyMark f v⟩
  | opcode {ts us : List Token} {d : List RawFunction} {f : RawFunction} {s : RawStatement} :
      Opened ts d f → IsHead us s → Reads (ts ++ us) ⟨d, .opcode f s⟩
  | mark (m : Lexeme) {ts us : List Token} {d : List RawFunction} {f : RawFunction}
      {s : RawStatement} : Opened ts d f → Awaits us s → Reads (ts ++ us ++ [⟨.mark, m⟩]) ⟨d, .mark f s⟩
  | operand {ts us : List Token} {d : List RawFunction} {f : RawFunction} {s : RawStatement} :
      Opened ts d f → IsListing us s → Reads (ts ++ us) ⟨d, .operand f s⟩
  | comma {ts us : List Token} {d : List RawFunction} {f : RawFunction} {s : RawStatement} :
      Opened ts d f → Awaits us s → Reads (ts ++ us) ⟨d, .comma f s⟩
  | copied {ts us : List Token} {d : List RawFunction} {f : RawFunction} {s : RawStatement} :
      Opened ts d f → IsStatement us s → Reads (ts ++ us) ⟨d, .copied f s⟩

theorem RawFunction.push_body_ne_nil (f : RawFunction) (i : RawItem) : (f.push i).body ≠ [] := by
  simp [RawFunction.push]

/-- Where an operand may come next, a statement is under way that awaits one. -/
theorem Reads.awaits {q : State} (hr : Reads ts ⟨d, q⟩) (h : Awaiting q f s) :
    ∃ us vs, ts = us ++ vs ∧ Opened us d f ∧ Awaits vs s := by
  cases h with
  | word f x =>
    cases hr with
    | word _ ho => exact ⟨_, _, rfl, ho, .head (.instruction x)⟩
  | opcode f s =>
    cases hr with
    | opcode ho hhead => exact ⟨_, _, rfl, ho, .head hhead⟩
  | comma f s =>
    cases hr with
    | comma ho ha => exact ⟨_, _, rfl, ho, ha⟩

/-- Where a line may end, a statement is complete. -/
theorem Reads.ends {q : State} (hr : Reads ts ⟨d, q⟩) (h : Ending q f s) :
    ∃ us vs, ts = us ++ vs ∧ Opened us d f ∧ IsStatement vs s := by
  cases h with
  | word f x =>
    cases hr with
    | word _ ho => exact ⟨_, _, rfl, ho, .instruction (.bare x)⟩
  | opcode f s =>
    cases hr with
    | opcode ho hhead => exact ⟨_, _, rfl, ho, hhead.isStatement⟩
  | operand f s =>
    cases hr with
    | operand ho hlist => exact ⟨_, _, rfl, ho, hlist.isStatement⟩
  | copied f s =>
    cases hr with
    | copied ho hs => exact ⟨_, _, rfl, ho, hs⟩

/-- A move reads one token more. -/
theorem Reads.move {q q' : State} {t : Terminal} (hr : Reads ts ⟨d, q⟩) (h : Moves q t x q') :
    Reads (ts ++ [⟨t, x⟩]) ⟨d, q'⟩ := by
  cases h with
  | function =>
    cases hr with
    | outside hd => exact .naming x hd
  | name hname =>
    cases hr with
    | naming k hd =>
      rw [List.append_assoc]
      exact .named k hd hname
  | lbrace =>
    cases hr with
    | named k hd hname =>
      have hopened := Opened.mk k x hd hname (f := ⟨_, []⟩) .nil
      rw [List.append_assoc, List.cons_append]
      exact .line hopened fun hb => absurd hb Bool.false_ne_true
  | word =>
    cases hr with
    | line ho _ => exact .word x ho
  | quoted =>
    cases hr with
    | line ho _ => exact .quoted x ho
  | assigning =>
    cases hr with
    | line ho _ => exact .assigning x ho
  | newline =>
    cases hr with
    | line ho hne => exact .line (ho.newline (hne rfl) x) hne
  | wordLabel =>
    cases hr with
    | word _ ho => exact .labelled x ho (.word _)
  | quotedLabel =>
    cases hr with
    | quoted _ ho => exact .labelled x ho (.quoted _)
  | label =>
    cases hr with
    | labelled c ho hname =>
      have hopened := ho.push (.label c hname (.one x))
      rw [List.append_assoc, List.append_assoc]
      exact .line hopened fun _ => RawFunction.push_body_ne_nil _ _
  | equals =>
    cases hr with
    | assigning _ ho =>
      rw [List.append_assoc]
      exact .assigned _ x ho
  | opcode =>
    cases hr with
    | assigned _ e ho =>
      rw [List.append_assoc]
      exact .opcode ho (.assignment _ e x)
  | copy hoperand =>
    cases hr with
    | assigned _ e ho =>
      rw [List.append_assoc]
      exact .copied ho (.copy _ e hoperand)
  | copyMark =>
    cases hr with
    | assigned _ e ho =>
      rw [List.append_assoc]
      exact .copyMark _ e x ho
  | copyTarget hname =>
    cases hr with
    | copyMark _ e m ho =>
      rw [List.append_assoc]
      exact .copied ho (.copy _ e (.target m hname))
  | operand hawaiting hoperand =>
    obtain ⟨us, vs, rfl, ho, ha⟩ := hr.awaits hawaiting
    rw [List.append_assoc]
    exact .operand ho (ha.operand hoperand)
  | mark hawaiting =>
    obtain ⟨us, vs, rfl, ho, ha⟩ := hr.awaits hawaiting
    exact .mark x ho ha
  | target hname =>
    cases hr with
    | mark m ho ha =>
      rw [List.append_assoc, List.append_assoc]
      exact .operand ho (ha.operand (.target m hname))
  | comma =>
    cases hr with
    | operand ho hlist =>
      rw [List.append_assoc]
      exact .comma ho (.comma x hlist)
  | close hending =>
    obtain ⟨us, vs, rfl, ho, hs⟩ := hr.ends hending
    exact .line (ho.statement hs x) fun _ => RawFunction.push_body_ne_nil _ _

/-- One step reads one token more. -/
theorem Reads.step {r r' : Reading} {t : Terminal} (hr : Reads ts r) (h : r.step t x = some r') :
    Reads (ts ++ [⟨t, x⟩]) r' := by
  rcases Reading.step_cases h with ⟨f, b, rfl, hline, rfl⟩ | ⟨q, hmove, rfl⟩
  · obtain ⟨d, q⟩ := r
    obtain rfl : q = .line f b := hline
    cases hr with
    | line ho _ => exact .outside (ho.close x)
  · exact hr.move hmove

theorem Reads.feed {r r' : Reading} (hr : Reads ts r) (h : r.feed us = some r') :
    Reads (ts ++ us) r' := by
  induction us generalizing ts r with
  | nil =>
    cases h
    rwa [List.append_nil]
  | cons t us ih =>
    rw [Reading.feed_cons] at h
    obtain ⟨q, hq, h⟩ := Option.bind_eq_some_iff.1 h
    rw [List.append_cons]
    exact ih (hr.step hq) h

/-- The machine comes to the end of a text exactly by its sentences. -/
theorem isModule_iff_feed : IsModule ts fs ↔ Reading.start.feed ts = some ⟨fs, .outside⟩ := by
  constructor
  · exact Reading.feed_module
  · intro h
    have hreads : Reads ts ⟨fs, .outside⟩ := Reads.feed (.outside .nil) h
    cases hreads with
    | outside hmodule => exact hmodule

/-! ### What may come next -/

/-- Whatever has been read can be finished. -/
theorem Reading.exists_feed (r : Reading) : ∃ ts fs, r.feed ts = some ⟨fs, .outside⟩ := by
  obtain ⟨d, q⟩ := r
  cases q with
  | outside => exact ⟨[], d, rfl⟩
  | naming => exact ⟨[⟨.word, []⟩, ⟨.lbrace, []⟩, ⟨.rbrace, []⟩], _, rfl⟩
  | named x => exact ⟨[⟨.lbrace, []⟩, ⟨.rbrace, []⟩], _, rfl⟩
  | line f b => exact ⟨[⟨.rbrace, []⟩], _, by cases b <;> rfl⟩
  | word f x => exact ⟨[⟨.newline, []⟩, ⟨.rbrace, []⟩], _, rfl⟩
  | quoted f x => exact ⟨[⟨.colon, []⟩, ⟨.newline, []⟩, ⟨.rbrace, []⟩], _, rfl⟩
  | labelled f x => exact ⟨[⟨.newline, []⟩, ⟨.rbrace, []⟩], _, rfl⟩
  | assigning f v => exact ⟨[⟨.equals, []⟩, ⟨.word, []⟩, ⟨.newline, []⟩, ⟨.rbrace, []⟩], _, rfl⟩
  | assigned f v => exact ⟨[⟨.word, []⟩, ⟨.newline, []⟩, ⟨.rbrace, []⟩], _, rfl⟩
  | copyMark f v => exact ⟨[⟨.word, []⟩, ⟨.newline, []⟩, ⟨.rbrace, []⟩], _, rfl⟩
  | opcode f s => exact ⟨[⟨.newline, []⟩, ⟨.rbrace, []⟩], _, rfl⟩
  | mark f s => exact ⟨[⟨.word, []⟩, ⟨.newline, []⟩, ⟨.rbrace, []⟩], _, rfl⟩
  | operand f s => exact ⟨[⟨.newline, []⟩, ⟨.rbrace, []⟩], _, rfl⟩
  | comma f s => exact ⟨[⟨.constant, []⟩, ⟨.newline, []⟩, ⟨.rbrace, []⟩], _, rfl⟩
  | copied f s => exact ⟨[⟨.newline, []⟩, ⟨.rbrace, []⟩], _, rfl⟩

/-- Which terminals can be read does not depend on their characters. -/
theorem Reading.isSome_step (r : Reading) (t : Terminal) (x y : Lexeme) :
    (r.step t x).isSome = (r.step t y).isSome := by
  obtain ⟨d, q⟩ := r
  cases q with
  | line f b => cases b <;> cases t <;> rfl
  | _ => cases t <;> rfl

/-- The tokens are the front of a sentence. -/
def Viable (ts : List Token) : Prop := ∃ us fs, IsModule (ts ++ us) fs

theorem viable_iff_feed : Viable ts ↔ ∃ r, Reading.start.feed ts = some r := by
  constructor
  · rintro ⟨us, fs, hmodule⟩
    rw [isModule_iff_feed, Reading.feed_append] at hmodule
    obtain ⟨r, hr, _⟩ := Option.bind_eq_some_iff.1 hmodule
    exact ⟨r, hr⟩
  · rintro ⟨r, hr⟩
    obtain ⟨us, fs, hfeed⟩ := r.exists_feed
    refine ⟨us, fs, isModule_iff_feed.2 ?_⟩
    rw [Reading.feed_append_of_eq hr, hfeed]

/-- The machine accepts what some sentence goes on with. -/
theorem accepts_iff {r : Reading} (hr : Reading.start.feed ts = some r) (t : Terminal) :
    r.accepts t = true ↔ ∃ x, Viable (ts ++ [⟨t, x⟩]) := by
  have hstep : ∀ x, Viable (ts ++ [⟨t, x⟩]) ↔ (r.step t x).isSome = true := by
    intro x
    rw [viable_iff_feed, Reading.feed_append_of_eq hr, Reading.feed_cons, Option.isSome_iff_exists]
    exact exists_congr fun r' => by cases r.step t x <;> rfl
  simp only [hstep, Reading.isSome_step r t _ [], exists_const]
  rfl

end fronts

/-! ### Texts -/

section texts

variable {ts us : List Token} {fs : List RawFunction} {r : Reading} {cs : List Char} {t : Terminal}
  {x : Lexeme}

/-- After the tokens `ts`, the terminals that are looked for: the ignored ones and those with which some
    sentence goes on. -/
def LooksFor (ts : List Token) (t : Terminal) : Prop :=
  t.isIgnored = true ∨ ∃ x, Viable (ts ++ [⟨t, x⟩])

/-- Of the terminals that are looked for, `t` is the first in the order of priority that takes something
    from the text, and it takes `x`. -/
structure Picks (ts : List Token) (cs : List Char) (t : Terminal) (x : Lexeme) : Prop where
  looksFor : LooksFor ts t
  takes : t.Takes cs x
  first : ∃ before after, Terminal.priority = before ++ t :: after ∧
    ∀ t' ∈ before, LooksFor ts t' → ∀ y, ¬t'.Takes cs y

/-- From a text, read after the tokens `ts`, terminal after terminal is picked until nothing is left; the
    ignored ones are dropped. -/
inductive Lexes : List Token → List Char → List Token → Prop
  | done (ts : List Token) : Lexes ts [] ts
  | skip {ts us : List Token} {cs rest : List Char} {t : Terminal} {x : Lexeme} :
      Picks ts cs t x → cs = x ++ rest → t.isIgnored = true → Lexes ts rest us → Lexes ts cs us
  | token {ts us : List Token} {cs rest : List Char} {t : Terminal} {x : Lexeme} :
      Picks ts cs t x → cs = x ++ rest → t.isIgnored = false → Lexes (ts ++ [⟨t, x⟩]) rest us →
      Lexes ts cs us

theorem picks_iff (hr : Reading.start.feed ts = some r) :
    Picks ts cs t x ↔ Terminal.first? r.accepts cs = some t ∧ x = cs.take (t.width cs) := by
  have hlooks : ∀ t, LooksFor ts t ↔ (t.isIgnored || r.accepts t) = true := by
    intro t
    rw [LooksFor, ← accepts_iff hr, Bool.or_eq_true]
  rw [Terminal.first?, List.find?_eq_some_iff_append]
  simp only [Bool.and_eq_true, decide_eq_true_eq, ← hlooks, Bool.not_eq_true', Bool.and_eq_false_imp,
    decide_eq_false_iff_not]
  constructor
  · rintro ⟨hlook, htakes, before, after, hpriority, hfirst⟩
    obtain ⟨hpos, rfl⟩ := Terminal.takes_iff.1 htakes
    refine ⟨⟨⟨hlook, hpos⟩, before, after, hpriority, fun t' ht' hlook' hpos' => ?_⟩, rfl⟩
    exact hfirst t' ht' hlook' _ (Terminal.takes_iff.2 ⟨hpos', rfl⟩)
  · rintro ⟨⟨⟨hlook, hpos⟩, before, after, hpriority, hfirst⟩, rfl⟩
    refine ⟨hlook, Terminal.takes_iff.2 ⟨hpos, rfl⟩, before, after, hpriority,
      fun t' ht' hlook' y hy => ?_⟩
    exact hfirst t' ht' hlook' (Terminal.takes_iff.1 hy).1

/-- A text of which no terminal takes anything is not read on. -/
theorem not_lexes_of_first (hr : Reading.start.feed ts = some r) (hcs : cs ≠ [])
    (ht : Terminal.first? r.accepts cs = none) : ¬Lexes ts cs us := by
  have hnone : ∀ {t x}, ¬Picks ts cs t x := by
    intro t x hp
    cases ht.symm.trans ((picks_iff hr).1 hp).1
  intro h
  cases h with
  | done => exact hcs rfl
  | skip hp _ _ _ => exact hnone hp
  | token hp _ _ _ => exact hnone hp

/-- A text is read on by what the first terminal takes. -/
theorem lexes_iff_of_first (hr : Reading.start.feed ts = some r) (hcs : cs ≠ [])
    (ht : Terminal.first? r.accepts cs = some t) : Lexes ts cs us ↔
      if t.isIgnored then Lexes ts (cs.drop (t.width cs)) us
      else Lexes (ts ++ [⟨t, cs.take (t.width cs)⟩]) (cs.drop (t.width cs)) us := by
  have hsplit := List.take_append_drop (t.width cs) cs
  constructor
  · intro h
    have hsame : ∀ {t' x rest}, Picks ts cs t' x → cs = x ++ rest →
        t' = t ∧ x = cs.take (t.width cs) ∧ rest = cs.drop (t.width cs) := by
      intro t' x rest hp hcs
      obtain ⟨ht', rfl⟩ := (picks_iff hr).1 hp
      cases ht.symm.trans ht'
      exact ⟨rfl, rfl, List.append_cancel_left (hcs.symm.trans hsplit.symm)⟩
    cases h with
    | done => exact absurd rfl hcs
    | skip hp heq hig hrest =>
      obtain ⟨rfl, rfl, rfl⟩ := hsame hp heq
      rwa [if_pos hig]
    | token hp heq hig hrest =>
      obtain ⟨rfl, rfl, rfl⟩ := hsame hp heq
      rwa [if_neg (by simp [hig])]
  · intro h
    have hp := (picks_iff hr).2 ⟨ht, rfl⟩
    split at h
    · rename_i hig
      exact .skip hp hsplit.symm hig h
    · rename_i hig
      exact .token hp hsplit.symm (Bool.eq_false_iff.2 hig) h

theorem lexes_nil_iff : Lexes ts [] us ↔ us = ts := by
  constructor
  · intro h
    have hlength : ∀ {t x rest}, Picks ts [] t x → [] ≠ x ++ rest := by
      rintro t x rest hp heq
      have hpos := hp.takes.1.length_pos
      rw [(List.append_eq_nil_iff.1 heq.symm).1] at hpos
      exact Nat.lt_irrefl 0 hpos
    cases h with
    | done => rfl
    | skip hp heq _ _ => exact absurd heq (hlength hp)
    | token hp heq _ _ => exact absurd heq (hlength hp)
  · rintro rfl
    exact .done us

/-- At the end of a text the tokens are a sentence if the machine is between functions. -/
theorem isModule_iff_of_feed (hr : Reading.start.feed ts = some r) :
    IsModule ts fs ↔ r = ⟨fs, .outside⟩ := by
  rw [isModule_iff_feed, hr, Option.some_inj]

/-- A text is read exactly as the terminals that are picked from it make a sentence. -/
theorem scan_eq_ok_iff (hr : Reading.start.feed ts = some r) (offset last : Nat) :
    scan r offset last cs = .ok fs ↔ ∃ us, Lexes ts cs us ∧ IsModule us fs := by
  fun_induction scan r offset last cs generalizing ts with
  | case1 r offset last hcomplete =>
    simp only [lexes_nil_iff, exists_eq_left, isModule_iff_of_feed hr]
    obtain ⟨d, q⟩ := r
    obtain rfl : q = .outside := by simpa [Reading.isComplete] using hcomplete
    simp
  | case2 r offset last hcomplete =>
    simp only [lexes_nil_iff, exists_eq_left, isModule_iff_of_feed hr]
    refine iff_of_false (fun h => (by cases h)) ?_
    rintro rfl
    exact hcomplete rfl
  | case3 r offset last cs hcs ht =>
    refine iff_of_false (fun h => (by cases h)) ?_
    rintro ⟨us, hus, _⟩
    exact not_lexes_of_first hr hcs ht hus
  | case4 r offset last cs hcs t ht w _ hig =>
    rename_i ih
    simp only [lexes_iff_of_first hr hcs ht, if_pos hig]
    exact ih hr
  | case5 r offset last cs hcs t ht w _ hig =>
    rename_i hstep
    -- what the first terminal takes can be read, whatever its characters are
    have hlooks : r.accepts t = true := by
      have hfound := List.find?_some ht
      simp only [Bool.and_eq_true, Bool.or_eq_true] at hfound
      exact hfound.1.resolve_left hig
    rw [Reading.accepts, Reading.isSome_step r t [] (cs.take w), hstep] at hlooks
    cases hlooks
  | case6 r offset last cs hcs t ht w _ hig r' hstep =>
    rename_i ih
    simp only [lexes_iff_of_first hr hcs ht, if_neg hig]
    refine ih ?_
    rw [Reading.feed_append_of_eq hr, Reading.feed_cons]
    show (r.step t (cs.take w)).bind _ = _
    rw [hstep]
    rfl

theorem read_eq_ok_iff : read cs = .ok fs ↔ ∃ ts, Lexes [] cs ts ∧ IsModule ts fs :=
  scan_eq_ok_iff rfl 0 0

end texts

/-- The texts that are read are the sentences of the grammar. A text is read, and as functions `fs`, exactly
    if picking terminal after terminal consumes all of it and leaves tokens from which `fs` derives.
    A module is then made of these functions; any other text is refused at some place of it. -/
theorem read_iff_sentence (first : Nat) (source : String) :
    (∀ fs, read source.toList = .ok fs ↔ ∃ ts, Lexes [] source.toList ts ∧ IsModule ts fs) ∧
      (∀ ts fs, Lexes [] source.toList ts → IsModule ts fs → Module.parse first source =
        ((fs.mapM RawFunction.read).mapError .badValue >>= Module.ofDeclarations first)) ∧
      ((∀ ts fs, Lexes [] source.toList ts → ¬IsModule ts fs) →
        ∃ offset, Module.parse first source = .error (errorAt source.toList offset)) := by
  refine ⟨fun fs => read_eq_ok_iff, fun ts fs hlexes hmodule => ?_, fun hnone => ?_⟩
  · rw [Module.parse, read_eq_ok_iff.2 ⟨ts, hlexes, hmodule⟩]
    rfl
  · cases hread : read source.toList with
    | error offset =>
      refine ⟨offset, ?_⟩
      rw [Module.parse, hread]
      rfl
    | ok fs =>
      obtain ⟨ts, hlexes, hmodule⟩ := read_eq_ok_iff.1 hread
      exact absurd hmodule (hnone ts fs hlexes)

end ProgDep.Source
