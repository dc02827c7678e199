import ProgDep.Dot
import ProgDep.Proofs.Lexeme

/-! DOT text, read. It is a row of identifiers and signs, where a quoted identifier ends at the first quote that
    is not escaped. A drawing lists edges between nodes, each with attributes.

    Identifiers that are read are sealed: every quote in them is escaped, and the quote that closes them is not.
    Lines in which all that stands in quotes is sealed are read as the edges that they are written for. -/

namespace ProgDep.Dot

open Text

/-! ### Reading DOT text -/

/-- What DOT text is made of. -/
inductive Token where
  | word (x : List Letter)
  | quoted (x : List Letter)
  | arrow | lbrace | rbrace | lbracket | rbracket | equals | comma | semicolon
  deriving DecidableEq, Repr

namespace Token

/-- Words and quoted texts are identifiers. -/
def name? : Token → Option (List Letter)
  | .word x | .quoted x => some x
  | _ => none

/-- The signs that are tokens by themselves. -/
def ofSign? : Char → Option Token
  | '\x7b' => some .lbrace
  | '\x7d' => some .rbrace
  | '[' => some .lbracket
  | ']' => some .rbracket
  | '=' => some .equals
  | ',' => some .comma
  | ';' => some .semicolon
  | _ => none

end Token

/-- Where in a token the reader is. -/
inductive Place where
  | between
  /-- after the first sign of an arrow -/
  | dash
  | word (x : List Letter)
  /-- after the quote that opens a text; `escaped` says whether the next letter stands for itself -/
  | quoted (x : List Letter) (escaped : Bool)
  deriving DecidableEq, Repr

/-- The tokens read so far, and where in the next one the reader is. -/
structure Lexing where
  done : List Token
  place : Place
  deriving DecidableEq, Repr

namespace Lexing

/-- Reads a letter that starts a token or stands between tokens. -/
def start (done : List Token) (a : Letter) : Option Lexing :=
  if Source.Terminal.isSpace a.toChar then some ⟨done, .between⟩
  else if a.toChar = '"' then some ⟨done, .quoted [] false⟩
  else if a.toChar = '-' then some ⟨done, .dash⟩
  else if isWordChar a.toChar then some ⟨done, .word [a]⟩
  else (Token.ofSign? a.toChar).map fun t => ⟨done ++ [t], .between⟩

/-- Reads one letter. -/
def step (l : Lexing) (a : Letter) : Option Lexing :=
  match l.place with
  | .between => start l.done a
  | .dash => if a.toChar = '>' then some ⟨l.done ++ [.arrow], .between⟩ else none
  | .word x =>
    if isWordChar a.toChar then some ⟨l.done, .word (x ++ [a])⟩ else start (l.done ++ [.word x]) a
  | .quoted x escaped =>
    if a.toChar = '"' && !escaped then some ⟨l.done ++ [.quoted x], .between⟩
    else some ⟨l.done, .quoted (x ++ [a]) (a.toChar = '\\' && !escaped)⟩

/-- Reads several letters. -/
def run (l : Lexing) (ls : List Letter) : Option Lexing := ls.foldlM step l

/-- The tokens, if the last one is complete. -/
def finish (l : Lexing) : Option (List Token) :=
  match l.place with
  | .between => some l.done
  | .word x => some (l.done ++ [.word x])
  | _ => none

end Lexing

/-- The tokens of a text. -/
def tokens? (ls : List Letter) : Option (List Token) := (Lexing.run ⟨[], .between⟩ ls).bind Lexing.finish

/-- A row of nodes with an arrow from each to the next, and the attributes of the arrows. A single node is a
    row without arrows. -/
structure Statement where
  chain : List (List Letter)
  attributes : List (List Letter × List Letter)
  deriving DecidableEq, Repr

/-- An arrow of a drawing. -/
structure Edge where
  source : List Letter
  target : List Letter
  attributes : List (List Letter × List Letter)
  deriving DecidableEq, Repr

/-- The arrows of a statement. -/
def Statement.edges (s : Statement) : List Edge :=
  (s.chain.zip s.chain.tail).map fun p => ⟨p.1, p.2, s.attributes⟩

/-- Where in a drawing the reader is, with the statements read so far. -/
inductive Phase where
  | opening
  /-- after the word that opens a drawing -/
  | naming
  | named
  /-- after the brace that opens the statements, or after a semicolon -/
  | statements (ss : List Statement)
  /-- after a node of a statement -/
  | chain (ss : List Statement) (xs : List (List Letter))
  /-- after an arrow -/
  | arrow (ss : List Statement) (xs : List (List Letter))
  /-- inside brackets, where an attribute may start -/
  | attributes (ss : List Statement) (s : Statement)
  /-- after the name of an attribute -/
  | attributeName (ss : List Statement) (s : Statement) (name : List Letter)
  /-- after the equals sign of an attribute -/
  | attributeValue (ss : List Statement) (s : Statement) (name : List Letter)
  /-- after an attribute -/
  | valued (ss : List Statement) (s : Statement)
  /-- after brackets -/
  | attributed (ss : List Statement) (s : Statement)
  | closed (ss : List Statement)
  deriving DecidableEq, Repr

namespace Phase

/-- Reads the token after a statement. -/
def next (ss : List Statement) : Token → Option Phase
  | .rbrace => some (.closed ss)
  | .semicolon => some (.statements ss)
  | t => t.name?.map fun x => .chain ss [x]

/-- Reads one token. -/
def step : Phase → Token → Option Phase
  | .opening, .word x => if x = plain "digraph" then some .naming else none
  | .naming, t => t.name?.map fun _ => .named
  | .named, .lbrace => some (.statements [])
  | .statements ss, .rbrace => some (.closed ss)
  | .statements ss, t => t.name?.map fun x => .chain ss [x]
  | .chain ss xs, .arrow => some (.arrow ss xs)
  | .chain ss xs, .lbracket => some (.attributes ss ⟨xs, []⟩)
  | .chain ss xs, t => next (ss ++ [⟨xs, []⟩]) t
  | .arrow ss xs, t => t.name?.map fun x => .chain ss (xs ++ [x])
  | .attributes ss s, .rbracket => some (.attributed ss s)
  | .attributes ss s, t => t.name?.map fun x => .attributeName ss s x
  | .attributeName ss s x, .equals => some (.attributeValue ss s x)
  | .attributeValue ss s x, t =>
    t.name?.map fun y => .valued ss { s with attributes := s.attributes ++ [(x, y)] }
  | .valued ss s, .comma | .valued ss s, .semicolon => some (.attributes ss s)
  | .valued ss s, .rbracket => some (.attributed ss s)
  | .valued ss s, t => t.name?.map fun x => .attributeName ss s x
  | .attributed ss s, .lbracket => some (.attributes ss s)
  | .attributed ss s, t => next (ss ++ [s]) t
  | _, _ => none

/-- Reads several tokens. -/
def run (p : Phase) (ts : List Token) : Option Phase := ts.foldlM step p

/-- The statements of a complete drawing. -/
def finish : Phase → Option (List Statement)
  | .closed ss => some ss
  | _ => none

end Phase

/-- The arrows that a DOT text lists, in order, if it is well formed. -/
def read? (ls : List Letter) : Option (List Edge) :=
  ((tokens? ls).bind fun ts => (Phase.run .opening ts).bind Phase.finish).map (·.flatMap Statement.edges)

/-! ### Where a quoted identifier ends -/

/-- In quotes, the text ends where it should: every quote in it comes after an odd number of backslashes, and
    the closing one does not. -/
structure Sealed (x : List Char) : Prop where
  inside : ∀ y z, x = y ++ '"' :: z → ¬Even (Source.trailingBackslashes y)
  closing : Even (Source.trailingBackslashes x)

open Source.Terminal (escapes escapes_iff)

variable {x : List Letter} {d ts : List Token} {l l' : Lexing} {a : Letter} {ls : List Letter}

/-- Every quote in the text is escaped. -/
def Guarded (x : List Char) : Prop := ∀ y z, x = y ++ '"' :: z → escapes false y = true

theorem sealed_iff {x : List Char} : Sealed x ↔ Guarded x ∧ escapes false x = false := by
  simp only [Guarded, ← Bool.not_eq_false, escapes_iff]
  exact ⟨fun h => ⟨h.inside, h.closing⟩, fun h => ⟨h.1, h.2⟩⟩

theorem escapes_append (e : Bool) (x y : List Char) : escapes e (x ++ y) = escapes (escapes e x) y :=
  List.foldl_append

theorem escapes_concat (e : Bool) (x : List Char) (c : Char) :
    escapes e (x ++ [c]) = (c = '\\' && !escapes e x) :=
  escapes_append e x [c]

theorem guarded_concat_iff {x : List Char} {c : Char} :
    Guarded (x ++ [c]) ↔ Guarded x ∧ (c = '"' → escapes false x = true) := by
  constructor
  · intro h
    refine ⟨fun y z hx => h y (z ++ [c]) (by simp [hx]), fun hc => h x [] (by rw [hc])⟩
  · rintro ⟨hx, hc⟩ y z heq
    rcases List.eq_nil_or_concat z with rfl | ⟨z, c', rfl⟩
    · obtain ⟨rfl, hquote⟩ := List.append_inj' heq rfl
      exact hc (List.cons.inj hquote).1
    · rw [List.concat_eq_append, ← List.cons_append, ← List.append_assoc] at heq
      exact hx y z (List.append_inj' heq rfl).1

/-- Whether every quote is escaped, as one pass finds out. -/
def guards (escaped : Bool) : List Char → Bool
  | [] => true
  | c :: cs => (c ≠ '"' || escaped) && guards (c = '\\' && !escaped) cs

theorem guards_concat (e : Bool) (x : List Char) (c : Char) :
    guards e (x ++ [c]) = (guards e x && (c ≠ '"' || escapes e x)) := by
  induction x generalizing e with
  | nil => simp [guards, escapes]
  | cons c' x ih => simp [guards, ih, escapes, Bool.and_assoc]

theorem guards_iff {x : List Char} : guards false x = true ↔ Guarded x := by
  induction x using List.reverseRecOn with
  | nil => simp [guards, Guarded]
  | append_singleton x c ih =>
    rw [guarded_concat_iff, ← ih, guards_concat]
    simp [imp_iff_not_or]

instance (x : List Char) : Decidable (Guarded x) := decidable_of_iff _ guards_iff

instance (x : List Char) : Decidable (Sealed x) := decidable_of_iff _ sealed_iff.symm

theorem guarded_append_iff {x y : List Char} (hx : escapes false x = false) :
    Guarded (x ++ y) ↔ Guarded x ∧ Guarded y := by
  induction y using List.reverseRecOn with
  | nil => simp [Guarded]
  | append_singleton y c ih =>
    rw [← List.append_assoc, guarded_concat_iff, ih, guarded_concat_iff, escapes_append, hx, and_assoc]

theorem sealed_append_iff {x y : List Char} (hx : escapes false x = false) :
    Sealed (x ++ y) ↔ Sealed x ∧ Sealed y := by
  rw [sealed_iff, sealed_iff, sealed_iff, guarded_append_iff hx, escapes_append, hx]
  tauto

/-- A text without quotes and backslashes. -/
theorem sealed_of_forall {x : List Char} (h : ∀ c ∈ x, c ≠ '"' ∧ c ≠ '\\') : Sealed x := by
  refine sealed_iff.2 ⟨?_, ?_⟩
  · rintro y z rfl
    exact absurd rfl (h '"' (by simp)).1
  · induction x using List.reverseRecOn with
    | nil => rfl
    | append_singleton x c _ => simp [escapes_concat, (h c (by simp)).2]

/-! ### What is read is sealed -/

theorem forall_mem_concat {α : Type} {Q : α → Prop} {xs : List α} {x : α} (hxs : ∀ y ∈ xs, Q y)
    (hx : Q x) : ∀ y ∈ xs ++ [x], Q y :=
  List.forall_mem_append.2 ⟨hxs, List.forall_mem_singleton.2 hx⟩

namespace Lexing

theorem run_append (l : Lexing) (ls ms : List Letter) : l.run (ls ++ ms) = (l.run ls).bind (·.run ms) :=
  List.foldlM_append

theorem run_cons (l : Lexing) (a : Letter) (ls : List Letter) :
    l.run (a :: ls) = (l.step a).bind (·.run ls) :=
  List.foldlM_cons

theorem run_concat (l : Lexing) (ls : List Letter) (a : Letter) :
    l.run (ls ++ [a]) = (l.run ls).bind (·.step a) := by
  rw [run_append]
  refine congrArg _ (funext fun l' => ?_)
  rw [run_cons]
  cases l'.step a <;> rfl

theorem step_quoted {e : Bool} (h : a.toChar = '"' → e = true) :
    step ⟨d, .quoted x e⟩ a = some ⟨d, .quoted (x ++ [a]) (a.toChar = '\\' && !e)⟩ := by
  refine if_neg fun hquote => ?_
  simp only [Bool.and_eq_true, decide_eq_true_eq, Bool.not_eq_true'] at hquote
  rw [h hquote.1] at hquote
  cases hquote.2

theorem run_guarded (h : Guarded (x.map Letter.toChar)) :
    run ⟨d, .quoted [] false⟩ x = some ⟨d, .quoted x (escapes false (x.map Letter.toChar))⟩ := by
  induction x using List.reverseRecOn with
  | nil => rfl
  | append_singleton x a ih =>
    rw [List.map_append, List.map_singleton] at h
    obtain ⟨hx, ha⟩ := guarded_concat_iff.1 h
    rw [run_concat, ih hx, Option.bind_some, step_quoted ha, List.map_append, List.map_singleton,
      escapes_concat]

/-- A sealed text in quotes is one token. -/
theorem run_sealed (h : Sealed (x.map Letter.toChar)) :
    run ⟨d, .between⟩ (plain "\"" ++ (x ++ plain "\"")) = some ⟨d ++ [.quoted x], .between⟩ := by
  obtain ⟨hguarded, hclosing⟩ := sealed_iff.1 h
  have hopen : run ⟨d, .between⟩ (plain "\"") = some ⟨d, .quoted [] false⟩ := rfl
  have hclose : run ⟨d, .quoted x false⟩ (plain "\"") = some ⟨d ++ [.quoted x], .between⟩ := rfl
  rw [run_append, hopen, Option.bind_some, run_append, run_guarded hguarded, Option.bind_some, hclosing,
    hclose]

/-- The identifiers among the tokens are sealed. -/
def AllSealed (ts : List Token) : Prop :=
  ∀ t ∈ ts, ∀ x, t.name? = some x → Sealed (x.map Letter.toChar)

/-- What is known of the token under way. -/
def Fits : Place → Prop
  | .between | .dash => True
  | .word x => ∀ a ∈ x, isWordChar a.toChar = true
  | .quoted x e => Guarded (x.map Letter.toChar) ∧ escapes false (x.map Letter.toChar) = e

theorem AllSealed.concat {t : Token} (hts : AllSealed ts)
    (ht : ∀ x, t.name? = some x → Sealed (x.map Letter.toChar)) : AllSealed (ts ++ [t]) :=
  forall_mem_concat hts ht

theorem sealed_of_word (h : Fits (.word x)) : Sealed (x.map Letter.toChar) := by
  refine sealed_of_forall fun c hc => ?_
  obtain ⟨a, ha, rfl⟩ := List.mem_map.1 hc
  have hword := h a ha
  constructor
  · intro hquote
    rw [hquote] at hword
    cases hword
  · intro hback
    rw [hback] at hword
    cases hword

theorem fits_start (hd : AllSealed d) (h : start d a = some l) : AllSealed l.done ∧ Fits l.place := by
  rw [start] at h
  split at h
  · cases h
    exact ⟨hd, trivial⟩
  · split at h
    · cases h
      exact ⟨hd, fun y z hyz => (by simp at hyz), rfl⟩
    · split at h
      · cases h
        exact ⟨hd, trivial⟩
      · split at h
        · rename_i hword
          cases h
          exact ⟨hd, List.forall_mem_singleton.2 hword⟩
        · obtain ⟨t, ht, rfl⟩ := Option.map_eq_some_iff.1 h
          refine ⟨hd.concat fun x hx => ?_, trivial⟩
          rw [Token.ofSign?.eq_def] at ht
          split at ht <;> cases ht <;> cases hx

/-- One letter keeps the identifiers sealed. -/
theorem fits_step (hd : AllSealed l.done) (hl : Fits l.place) (h : l.step a = some l') :
    AllSealed l'.done ∧ Fits l'.place := by
  obtain ⟨d, place⟩ := l
  cases place with
  | between => exact fits_start hd h
  | dash =>
    simp only [step] at h
    split at h
    · cases h
      exact ⟨hd.concat fun x hx => (by cases hx), trivial⟩
    · cases h
  | word x =>
    simp only [step] at h
    split at h
    · rename_i hword
      cases h
      exact ⟨hd, forall_mem_concat hl hword⟩
    · refine fits_start (hd.concat fun y hy => ?_) h
      cases hy
      exact sealed_of_word hl
  | quoted x e =>
    obtain ⟨hguarded, hescapes⟩ := hl
    by_cases hquote : a.toChar = '"' → e = true
    · rw [step_quoted hquote] at h
      cases h
      refine ⟨hd, ?_⟩
      rw [Fits, List.map_append, List.map_singleton, guarded_concat_iff, escapes_concat, hescapes]
      exact ⟨⟨hguarded, hquote⟩, rfl⟩
    · obtain ⟨ha, he⟩ := Classical.not_imp.1 hquote
      have he : e = false := Bool.eq_false_iff.2 he
      have hclose : step ⟨d, .quoted x e⟩ a = some ⟨d ++ [.quoted x], .between⟩ :=
        if_pos (by rw [ha, he]; rfl)
      cases hclose.symm.trans h
      refine ⟨hd.concat fun y hy => ?_, trivial⟩
      cases hy
      exact sealed_iff.2 ⟨hguarded, hescapes.trans he⟩

theorem fits_run (hd : AllSealed l.done) (hl : Fits l.place) (h : l.run ls = some l') :
    AllSealed l'.done ∧ Fits l'.place := by
  induction ls generalizing l with
  | nil =>
    cases h
    exact ⟨hd, hl⟩
  | cons a ls ih =>
    rw [run_cons] at h
    obtain ⟨l'', hstep, h⟩ := Option.bind_eq_some_iff.1 h
    obtain ⟨hd', hl'⟩ := fits_step hd hl hstep
    exact ih hd' hl' h

/-- Identifiers are sealed in every text that can be read. -/
theorem allSealed_of_tokens? (h : tokens? ls = some ts) : AllSealed ts := by
  obtain ⟨⟨d, place⟩, hrun, hfinish⟩ := Option.bind_eq_some_iff.1 h
  have hstart : AllSealed [] := fun t ht => absurd ht List.not_mem_nil
  obtain ⟨hd, hfits⟩ := fits_run (l := ⟨[], .between⟩) hstart trivial hrun
  cases place with
  | between =>
    cases hfinish
    exact hd
  | word x =>
    cases hfinish
    refine hd.concat fun y hy => ?_
    cases hy
    exact sealed_of_word hfits
  | dash => cases hfinish
  | quoted x e => cases hfinish

end Lexing

/-- All identifiers of a statement have a property. -/
structure Statement.All (P : List Letter → Prop) (s : Statement) : Prop where
  chain : ∀ x ∈ s.chain, P x
  attributes : ∀ p ∈ s.attributes, P p.1 ∧ P p.2

/-- All identifiers of an arrow have a property. -/
structure Edge.All (P : List Letter → Prop) (e : Edge) : Prop where
  source : P e.source
  target : P e.target
  attributes : ∀ p ∈ e.attributes, P p.1 ∧ P p.2

variable {P : List Letter → Prop} {s : Statement} {ss : List Statement} {es : List Edge}

theorem Statement.All.edge {e : Edge} (hs : s.All P) (he : e ∈ s.edges) : e.All P := by
  obtain ⟨p, hp, rfl⟩ := List.mem_map.1 he
  obtain ⟨hsource, htarget⟩ := List.of_mem_zip hp
  exact ⟨hs.chain _ hsource, hs.chain _ (List.mem_of_mem_tail htarget), hs.attributes⟩

namespace Phase

variable {p q : Phase} {t : Token}

/-- All identifiers that the reader keeps have a property. -/
def Keeps (P : List Letter → Prop) : Phase → Prop
  | .opening | .naming | .named => True
  | .statements ss | .closed ss => ∀ s ∈ ss, s.All P
  | .chain ss xs | .arrow ss xs => (∀ s ∈ ss, s.All P) ∧ ∀ x ∈ xs, P x
  | .attributes ss s | .valued ss s | .attributed ss s => (∀ s ∈ ss, s.All P) ∧ s.All P
  | .attributeName ss s x | .attributeValue ss s x => (∀ s ∈ ss, s.All P) ∧ s.All P ∧ P x

theorem keeps_next (hss : ∀ s ∈ ss, s.All P) (ht : ∀ x, t.name? = some x → P x)
    (h : next ss t = some q) : q.Keeps P := by
  cases t <;> cases h
  · exact ⟨hss, List.forall_mem_singleton.2 (ht _ rfl)⟩
  · exact ⟨hss, List.forall_mem_singleton.2 (ht _ rfl)⟩
  · exact hss
  · exact hss

/-- One token keeps the property if the identifier that it is has it. -/
theorem keeps_step (hp : p.Keeps P) (ht : ∀ x, t.name? = some x → P x) (h : p.step t = some q) :
    q.Keeps P := by
  -- all but the tokens that may come next are ruled out; these stay in the order of their declaration
  cases p with
  | opening =>
    cases t <;> try cases h
    simp only [step] at h
    split at h <;> cases h
    trivial
  | naming => cases t <;> cases h <;> trivial
  | named =>
    cases t <;> cases h
    exact fun s hs => absurd hs List.not_mem_nil
  | statements ss =>
    cases t <;> cases h
    · exact ⟨hp, List.forall_mem_singleton.2 (ht _ rfl)⟩
    · exact ⟨hp, List.forall_mem_singleton.2 (ht _ rfl)⟩
    · exact hp
  | chain ss xs =>
    obtain ⟨hss, hxs⟩ := hp
    have hs : Statement.All P ⟨xs, []⟩ := ⟨hxs, fun p hp => absurd hp List.not_mem_nil⟩
    have hnext := keeps_next (q := q) (forall_mem_concat hss hs) ht
    cases t with
    | arrow => cases h; exact ⟨hss, hxs⟩
    | lbracket => cases h; exact ⟨hss, hs⟩
    | _ => exact hnext h
  | arrow ss xs =>
    cases t <;> cases h
    · exact ⟨hp.1, forall_mem_concat hp.2 (ht _ rfl)⟩
    · exact ⟨hp.1, forall_mem_concat hp.2 (ht _ rfl)⟩
  | attributes ss s =>
    cases t <;> cases h
    · exact ⟨hp.1, hp.2, ht _ rfl⟩
    · exact ⟨hp.1, hp.2, ht _ rfl⟩
    · exact hp
  | attributeName ss s x =>
    cases t <;> cases h
    exact hp
  | attributeValue ss s x =>
    obtain ⟨hss, hs, hx⟩ := hp
    cases t <;> cases h
    · exact ⟨hss, hs.chain, forall_mem_concat hs.attributes ⟨hx, ht _ rfl⟩⟩
    · exact ⟨hss, hs.chain, forall_mem_concat hs.attributes ⟨hx, ht _ rfl⟩⟩
  | valued ss s =>
    cases t <;> cases h
    · exact ⟨hp.1, hp.2, ht _ rfl⟩
    · exact ⟨hp.1, hp.2, ht _ rfl⟩
    · exact hp
    · exact hp
    · exact hp
  | attributed ss s =>
    have hnext := keeps_next (q := q) (forall_mem_concat hp.1 hp.2) ht
    cases t with
    | lbracket => cases h; exact hp
    | _ => exact hnext h
  | closed ss => cases t <;> cases h

theorem run_cons (p : Phase) (t : Token) (ts : List Token) :
    p.run (t :: ts) = (p.step t).bind (·.run ts) :=
  List.foldlM_cons

theorem run_append (p : Phase) (ts us : List Token) : p.run (ts ++ us) = (p.run ts).bind (·.run us) :=
  List.foldlM_append

theorem keeps_run (hp : p.Keeps P) (hts : ∀ t ∈ ts, ∀ x, t.name? = some x → P x)
    (h : p.run ts = some q) : q.Keeps P := by
  induction ts generalizing p with
  | nil =>
    cases h
    exact hp
  | cons t ts ih =>
    obtain ⟨ht, hts⟩ := List.forall_mem_cons.1 hts
    rw [run_cons] at h
    obtain ⟨p', hstep, h⟩ := Option.bind_eq_some_iff.1 h
    exact ih (keeps_step hp ht hstep) hts h

end Phase

/-- All identifiers that are read from a text are sealed. -/
theorem all_of_read? (h : read? ls = some es) :
    ∀ e ∈ es, e.All fun x => Sealed (x.map Letter.toChar) := by
  obtain ⟨ss, hread, rfl⟩ := Option.map_eq_some_iff.1 h
  obtain ⟨ts, hts, hread⟩ := Option.bind_eq_some_iff.1 hread
  obtain ⟨p, hrun, hfinish⟩ := Option.bind_eq_some_iff.1 hread
  have hkeeps := Phase.keeps_run (p := .opening) trivial (Lexing.allSealed_of_tokens? hts) hrun
  cases p with
  | closed ss' =>
    cases hfinish
    intro e he
    obtain ⟨s, hs, he⟩ := List.mem_flatMap.1 he
    exact (hkeeps s hs).edge he
  | _ => cases hfinish

/-! ### Reading what is drawn -/

/-- The attributes of an edge with a label. -/
def labelAttributes (label : Option String) : List (List Letter × List Letter) :=
  label.elim [] fun text => [(plain "label", plain text)]

/-- The tokens of a line. -/
def lineTokens (source target : List Letter) (label : Option String) : List Token :=
  [.quoted source, .arrow, .quoted target] ++
    label.elim [] fun text => [.lbracket, .word (plain "label"), .equals, .quoted (plain text), .rbracket]

theorem map_toChar_plain (s : String) : (plain s).map Letter.toChar = s.toList := by
  simp [plain, Function.comp_def, Letter.toChar]

variable {source target : List Letter} {label : Option String}

/-- A line is read as its tokens if all that stands in quotes is sealed. -/
theorem Lexing.run_line (hsource : Sealed (source.map Letter.toChar))
    (htarget : Sealed (target.map Letter.toChar)) (hlabel : ∀ text, label = some text → Sealed text.toList) :
    run ⟨d, .between⟩ (plain "\n" ++ edge source target (labelled label)) =
      some ⟨d ++ lineTokens source target label, .between⟩ := by
  have hmargin : run ⟨d, .between⟩ (plain "\n" ++ plain "    ") = some ⟨d, .between⟩ := rfl
  have harrow : ∀ d, run ⟨d, .between⟩ (plain " -> ") = some ⟨d ++ [.arrow], .between⟩ := fun _ => rfl
  rw [edge, ← List.append_assoc, run_append, hmargin, Option.bind_some, run_append, quoted,
    run_sealed hsource, Option.bind_some, run_append, harrow, Option.bind_some, run_append, quoted,
    run_sealed htarget, Option.bind_some, lineTokens, labelled]
  cases label with
  | none => simp [run]
  | some text =>
    have hopen : ∀ d, run ⟨d, .between⟩ (plain " [label=") =
        some ⟨d ++ [.lbracket] ++ [.word (plain "label")] ++ [.equals], .between⟩ := fun _ => rfl
    have hclose : ∀ d, run ⟨d, .between⟩ (plain "]") = some ⟨d ++ [.rbracket], .between⟩ := fun _ => rfl
    have htext : Sealed ((plain text).map Letter.toChar) := by
      rw [map_toChar_plain]
      exact hlabel text rfl
    rw [Option.elim_some, run_append, hopen, Option.bind_some, run_append, quoted, run_sealed htext,
      Option.bind_some, hclose]
    simp

namespace Phase

variable {p : Phase}

/-- A statement may start, or the drawing may end. -/
def Ready (p : Phase) (ss : List Statement) : Prop :=
  (∀ x, p.step (.quoted x) = some (.chain ss [x])) ∧ p.step .rbrace = some (.closed ss)

theorem exists_run_line (hp : p.Ready ss) (source target : List Letter) (label : Option String) :
    ∃ q, p.run (lineTokens source target label) = some q ∧
      q.Ready (ss ++ [⟨[source, target], labelAttributes label⟩]) := by
  rw [lineTokens, List.cons_append, run_cons, hp.1, Option.bind_some]
  cases label with
  | none => exact ⟨.chain ss [source, target], rfl, fun _ => rfl, rfl⟩
  | some text => exact ⟨.attributed ss ⟨[source, target], labelAttributes (some text)⟩, rfl, fun _ => rfl, rfl⟩

end Phase

section lines

variable {α : Type} {es : List α} {source target : α → List Letter} {label : α → Option String}

theorem Lexing.run_lines
    (hsource : ∀ e ∈ es, Sealed ((source e).map Letter.toChar))
    (htarget : ∀ e ∈ es, Sealed ((target e).map Letter.toChar))
    (hlabel : ∀ e ∈ es, ∀ text, label e = some text → Sealed text.toList) :
    run ⟨d, .between⟩ (es.flatMap fun e => plain "\n" ++ edge (source e) (target e) (labelled (label e))) =
      some ⟨d ++ es.flatMap fun e => lineTokens (source e) (target e) (label e), .between⟩ := by
  induction es generalizing d with
  | nil =>
    rw [List.flatMap_nil, List.flatMap_nil, List.append_nil]
    rfl
  | cons e es ih =>
    obtain ⟨hs, hsource⟩ := List.forall_mem_cons.1 hsource
    obtain ⟨ht, htarget⟩ := List.forall_mem_cons.1 htarget
    obtain ⟨hl, hlabel⟩ := List.forall_mem_cons.1 hlabel
    rw [List.flatMap_cons, run_append, run_line hs ht hl, Option.bind_some, ih hsource htarget hlabel,
      List.flatMap_cons, List.append_assoc]

theorem Phase.exists_run_lines {p : Phase} (hp : p.Ready ss) (es : List α) (source target : α → List Letter)
    (label : α → Option String) :
    ∃ q, p.run (es.flatMap fun e => lineTokens (source e) (target e) (label e)) = some q ∧
      q.Ready (ss ++ es.map fun e => ⟨[source e, target e], labelAttributes (label e)⟩) := by
  induction es generalizing p ss with
  | nil => exact ⟨p, rfl, by rwa [List.map_nil, List.append_nil]⟩
  | cons e es ih =>
    obtain ⟨q, hq, hready⟩ := exists_run_line hp (source e) (target e) (label e)
    obtain ⟨q', hq', hready'⟩ := ih hready
    refine ⟨q', ?_, ?_⟩
    · rw [List.flatMap_cons, run_append, hq, Option.bind_some, hq']
    · rw [List.append_assoc] at hready'
      exact hready'

/-- Lines in which all that stands in quotes is sealed are read as the edges that they draw. -/
theorem read?_lines (hsource : ∀ e ∈ es, Sealed ((source e).map Letter.toChar))
    (htarget : ∀ e ∈ es, Sealed ((target e).map Letter.toChar))
    (hlabel : ∀ e ∈ es, ∀ text, label e = some text → Sealed text.toList) :
    read? (digraph "cfg" (es.map fun e => edge (source e) (target e) (labelled (label e)))) =
      some (es.map fun e => ⟨source e, target e, labelAttributes (label e)⟩) := by
  have hheader : Lexing.run ⟨[], .between⟩ (plain ("digraph " ++ "cfg" ++ " \x7b")) =
      some ⟨[.word (plain "digraph"), .word (plain "cfg"), .lbrace], .between⟩ := rfl
  have hend : ∀ d, Lexing.run ⟨d, .between⟩ (plain "\n\x7d") = some ⟨d ++ [.rbrace], .between⟩ :=
    fun _ => rfl
  have hopen : Phase.run .opening [.word (plain "digraph"), .word (plain "cfg"), .lbrace] =
      some (.statements []) := rfl
  have hstart : Phase.Ready (.statements []) [] := ⟨fun _ => rfl, rfl⟩
  obtain ⟨q, hq, hready⟩ := Phase.exists_run_lines hstart es source target label
  have hclose : q.run [.rbrace] =
      some (.closed (es.map fun e => ⟨[source e, target e], labelAttributes (label e)⟩)) := by
    rw [Phase.run_cons, hready.2]
    rfl
  rw [read?, tokens?, digraph, List.flatMap_map, Lexing.run_append, hheader, Option.bind_some, Lexing.run_append,
    Lexing.run_lines hsource htarget hlabel, Option.bind_some, hend, Option.bind_some, Lexing.finish,
    Option.bind_some, Phase.run_append, Phase.run_append, hopen, Option.bind_some, hq, Option.bind_some,
    hclose, Option.bind_some, Phase.finish, Option.map_some, List.flatMap_map, List.map_eq_flatMap]
  rfl

end lines

end ProgDep.Dot
