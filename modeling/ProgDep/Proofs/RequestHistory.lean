import ProgDep.Analysis
import ProgDep.Proofs.FlowGraph

/-! Requests do not depend on what was requested before. Each analysis has a value of its own, worked out
    from the function, the settings and the way warnings are treated; a cache holds such values and
    nothing else, and a request answers with them. What a request leaves in the cache is what it tried to
    build on the way and what could be built.

    The invariant is `Consistent`: one request keeps it, answers as without a cache, and adds to the cache
    what it tried with success. A sequence of requests is then an induction. -/

namespace ProgDep

open Dominance

/-! ### Analyses without a cache -/

namespace Direct

variable (f : Function) (s : Settings) (mode : WarningMode)

def flow : Except AnalysisFailure Flow := (Flow.build f).mapError .malformed

def dominators : Except AnalysisFailure (DominatorTree Node) := do
  (← flow f).dominatorTree.mapError .breakdown

def postDominators : Except AnalysisFailure (DominatorTree Node) := do
  (← flow f).postDominatorTree.mapError .breakdown

def control : Except AnalysisFailure Control := do
  let c ← flow f
  let t ← postDominators f
  (Control.build c t).mapError .breakdown

def defUse : Except AnalysisFailure DefUse := .ok (DefUse.build f)

/-- A warning, when it is known how warnings are treated. -/
def warn (w : Warning) : Except AnalysisFailure Unit :=
  if mode = .fail then .error (.warning w) else .ok ()

/-- The dependence graph of a flow graph, unless leaving out blocks is a failure. -/
def dependenceOf (c : Flow) (d : DefUse) (k : Control) : Except AnalysisFailure DependenceGraph := do
  if !s.includeUnreachable && !c.unreachableBlocks.isEmpty then
    warn mode (Request.unreachableWarning f c.unreachableBlocks)
  return DependenceGraph.build s c d k

def dependence : Except AnalysisFailure DependenceGraph := do
  let c ← flow f
  let d ← defUse f
  let k ← control f
  dependenceOf f s mode c d k

/-- What an analysis finds, or why it fails. -/
def result : AnalysisKind → Except AnalysisFailure AnalysisResult
  | .flow => (flow f).map .flow
  | .dominators => (dominators f).map .tree
  | .postDominators => (postDominators f).map .tree
  | .control => (control f).map .control
  | .defUse => (defUse f).map .defUse
  | .dependence => (dependence f s mode).map .dependence
  | .abstract => .error .unbuildable
  | .abstractTree => do
    let _ ← flow f
    .error .unbuildable

/-- The analysis can be built. -/
def Succeeds (k : AnalysisKind) : Prop := ∃ a, result f s mode k = .ok a

end Direct

/-! ### What a request tries to build -/

/-- The analyses that an analysis asks for, in order. -/
def AnalysisKind.prerequisites : AnalysisKind → List AnalysisKind
  | .flow | .defUse | .abstract => []
  | .dominators | .postDominators | .abstractTree => [.flow]
  | .control => [.flow, .postDominators]
  | .dependence => [.flow, .defUse, .control]

/-- What is tried on the way when the analyses of a list are asked for in order, up to the first that
    cannot be built: the analysis itself, what it asks for in turn, and then the others. -/
inductive Attempts (succeeds : AnalysisKind → Prop) : List AnalysisKind → AnalysisKind → Prop
  | self {k : AnalysisKind} {ks : List AnalysisKind} : Attempts succeeds (k :: ks) k
  | need {k x : AnalysisKind} {ks : List AnalysisKind} :
      Attempts succeeds k.prerequisites x → Attempts succeeds (k :: ks) x
  | next {k x : AnalysisKind} {ks : List AnalysisKind} :
      succeeds k → Attempts succeeds ks x → Attempts succeeds (k :: ks) x

/-- How many steps an analysis is away from those that rest on nothing. -/
def AnalysisKind.depth : AnalysisKind → Nat
  | .flow | .defUse | .abstract => 0
  | .dominators | .postDominators | .abstractTree => 1
  | .control => 2
  | .dependence => 3

theorem AnalysisKind.depth_lt {k p : AnalysisKind} (h : p ∈ k.prerequisites) : p.depth < k.depth := by
  revert h
  cases k <;> cases p <;> decide

namespace Attempts

variable {succeeds P : AnalysisKind → Prop} {k x : AnalysisKind} {ks : List AnalysisKind}

theorem cons_iff : Attempts succeeds (k :: ks) x ↔
    x = k ∨ Attempts succeeds k.prerequisites x ∨ (succeeds k ∧ Attempts succeeds ks x) := by
  constructor
  · intro h
    cases h with
    | self => exact Or.inl rfl
    | need h => exact Or.inr (Or.inl h)
    | next hk h => exact Or.inr (Or.inr ⟨hk, h⟩)
  · rintro (rfl | h | ⟨hk, h⟩)
    · exact .self
    · exact .need h
    · exact .next hk h

theorem not_nil : ¬Attempts succeeds [] x := by
  intro h
  cases h

/-- Asking for several analyses is asking for the first, and for the others if it can be built. -/
theorem cons_iff_singleton : Attempts succeeds (k :: ks) x ↔
    Attempts succeeds [k] x ∨ (succeeds k ∧ Attempts succeeds ks x) := by
  rw [cons_iff, @cons_iff succeeds k x []]
  simp only [not_nil, and_false, or_false, or_assoc]

/-- Where everything can be built, everything is tried. -/
theorem of_mem (hall : ∀ k ∈ ks, succeeds k) (hx : x ∈ ks) : Attempts succeeds ks x := by
  induction ks with
  | nil => exact absurd hx List.not_mem_nil
  | cons k ks ih =>
    rcases List.mem_cons.1 hx with rfl | hx
    · exact .self
    · exact .next (hall k List.mem_cons_self) (ih (fun q hq => hall q (List.mem_cons_of_mem k hq)) hx)

/-- What holds of the analyses asked for and goes over to prerequisites holds of all that is tried. -/
theorem induct (hclosed : ∀ k, P k → ∀ p ∈ k.prerequisites, P p) (h : Attempts succeeds ks x)
    (hks : ∀ k ∈ ks, P k) : P x := by
  induction h with
  | self => exact hks _ List.mem_cons_self
  | need _ ih => exact ih (hclosed _ (hks _ List.mem_cons_self))
  | next _ _ ih => exact ih fun q hq => hks q (List.mem_cons_of_mem _ hq)

/-- No analysis is tried on its own account. -/
theorem not_self : ¬Attempts succeeds k.prerequisites k := by
  intro h
  have hlt : k.depth < k.depth := h.induct (P := fun x => x.depth < k.depth)
    (fun _ hq _ hp => (AnalysisKind.depth_lt hp).trans hq) fun _ hp => AnalysisKind.depth_lt hp
  exact lt_irrefl _ hlt

end Attempts

namespace Direct

variable {f : Function} {s : Settings} {mode : WarningMode} {k p : AnalysisKind}

/-- An analysis that can be built rests on others that can be built. -/
theorem Succeeds.of_mem_prerequisites (h : Succeeds f s mode k) (hp : p ∈ k.prerequisites) :
    Succeeds f s mode p := by
  have succeeds_flow : ∀ c, flow f = .ok c → Succeeds f s mode .flow := fun c hc =>
    ⟨_, map_eq_ok_iff.2 ⟨c, hc, rfl⟩⟩
  obtain ⟨a, ha⟩ := h
  cases k with
  | flow | defUse | abstract => exact absurd hp List.not_mem_nil
  | dominators | postDominators =>
    obtain ⟨t, ht, -⟩ := map_eq_ok_iff.1 ha
    obtain ⟨c, hc, -⟩ := bind_eq_ok_iff.1 ht
    obtain rfl := List.mem_singleton.1 hp
    exact succeeds_flow c hc
  | abstractTree =>
    obtain ⟨c, hc, -⟩ := bind_eq_ok_iff.1 ha
    obtain rfl := List.mem_singleton.1 hp
    exact succeeds_flow c hc
  | control =>
    obtain ⟨g, hg, -⟩ := map_eq_ok_iff.1 ha
    obtain ⟨c, hc, hg⟩ := bind_eq_ok_iff.1 hg
    obtain ⟨t, ht, -⟩ := bind_eq_ok_iff.1 hg
    rcases List.mem_pair.1 hp with rfl | rfl
    · exact succeeds_flow c hc
    · exact ⟨_, map_eq_ok_iff.2 ⟨t, ht, rfl⟩⟩
  | dependence =>
    obtain ⟨g, hg, -⟩ := map_eq_ok_iff.1 ha
    obtain ⟨c, hc, hg⟩ := bind_eq_ok_iff.1 hg
    obtain ⟨d, hd, hg⟩ := bind_eq_ok_iff.1 hg
    obtain ⟨g', hg', -⟩ := bind_eq_ok_iff.1 hg
    rcases List.mem_cons.1 hp with rfl | hp
    · exact succeeds_flow c hc
    rcases List.mem_pair.1 hp with rfl | rfl
    · exact ⟨_, map_eq_ok_iff.2 ⟨d, hd, rfl⟩⟩
    · exact ⟨_, map_eq_ok_iff.2 ⟨g', hg', rfl⟩⟩

end Direct

/-! ### What a cache holds -/

namespace Cache

/-- What is kept for an analysis. -/
def value? (c : Cache) : AnalysisKind → Option AnalysisResult
  | .flow => c.flow.map .flow
  | .dominators => c.dominators.map .tree
  | .postDominators => c.postDominators.map .tree
  | .control => c.control.map .control
  | .defUse => c.defUse.map .defUse
  | .dependence => c.dependence.map .dependence
  | .abstract | .abstractTree => none

def holds (c : Cache) (k : AnalysisKind) : Prop := (c.value? k).isSome = true

/-- `kept` reads and `keep` writes what is kept for one analysis, and nothing else. -/
structure Slot {α : Type} (kind : AnalysisKind) (wrap : α → AnalysisResult)
    (kept : Cache → Option α) (keep : Cache → α → Cache) : Prop where
  injective : Function.Injective wrap
  read : ∀ c, c.value? kind = (kept c).map wrap
  write : ∀ c a x, (keep c a).value? x = if x = kind then some (wrap a) else c.value? x
  settings : ∀ c a, (keep c a).settings = c.settings
  finished : ∀ c a, (keep c a).finished = c.finished

end Cache

/-! ### One request -/

/-- The cache holds what the analyses find and nothing else, each listed once among the finished, and with
    an analysis also those that it asks for. -/
structure Consistent (f : Function) (s : Settings) (mode : WarningMode) (r : Run) : Prop where
  settings_eq : r.cache.settings = s
  mode_eq : r.console.filter.mode = mode
  result : ∀ k a, r.cache.value? k = some a → Direct.result f s mode k = .ok a
  finished : ∀ k, k ∈ r.cache.finished ↔ r.cache.holds k
  nodup : r.cache.finished.Nodup
  closed : ∀ k, r.cache.holds k → ∀ p ∈ k.prerequisites, r.cache.holds p

/-- The cache of `r'` keeps what that of `r` held, and holds the new analyses besides. -/
structure Extends (r r' : Run) (new : AnalysisKind → Prop) : Prop where
  entry : ∀ k a, r.cache.value? k = some a → r'.cache.value? k = some a
  holds : ∀ k, r'.cache.holds k ↔ r.cache.holds k ∨ new k

/-- What is tried with success when the analyses of a list are asked for. -/
def Built (f : Function) (s : Settings) (mode : WarningMode) (ks : List AnalysisKind)
    (x : AnalysisKind) : Prop :=
  Attempts (Direct.Succeeds f s mode) ks x ∧ Direct.Succeeds f s mode x

/-- A request that answers `a` and adds the new analyses, whatever a consistent cache holds. -/
def Computes {α : Type} (f : Function) (s : Settings) (mode : WarningMode) (q : Request α)
    (a : Except AnalysisFailure α) (new : AnalysisKind → Prop) : Prop :=
  ∀ r, Consistent f s mode r →
    ∃ r', q.run.run r = (a, r') ∧ Consistent f s mode r' ∧ Extends r r' new

section steps

variable {α β : Type} {f : Function} {s : Settings} {mode : WarningMode} {r r' r'' : Run}
  {q : Request α} {g : α → Request β} {a : Except AnalysisFailure α}
  {b : α → Except AnalysisFailure β} {new new' : AnalysisKind → Prop} {k x : AnalysisKind}
  {ks : List AnalysisKind}

theorem Extends.trans (h : Extends r r' new) (h' : Extends r' r'' new') :
    Extends r r'' fun k => new k ∨ new' k := by
  refine ⟨fun k a ha => h'.entry k a (h.entry k a ha), fun k => ?_⟩
  rw [h'.holds, h.holds, or_assoc]

theorem Extends.congr (h : Extends r r' new) (hnew : ∀ k, new k ↔ new' k) : Extends r r' new' :=
  ⟨h.entry, fun k => by rw [h.holds, hnew]⟩

namespace Computes

theorem congr (h : Computes f s mode q a new) (hnew : ∀ k, new k ↔ new' k) :
    Computes f s mode q a new' := by
  intro r hr
  obtain ⟨r', hrun, hr', hext⟩ := h r hr
  exact ⟨r', hrun, hr', hext.congr hnew⟩

/-- One request after another; the second is made only if the first has an answer. -/
theorem bind (hq : Computes f s mode q a new)
    (hg : ∀ v, a = .ok v → Computes f s mode (g v) (b v) new') :
    Computes f s mode (q >>= g) (a >>= b) fun k => new k ∨ ((∃ v, a = .ok v) ∧ new' k) := by
  intro r hr
  obtain ⟨r', hrun, hr', hext⟩ := hq r hr
  rw [run_bind, hrun]
  cases a with
  | error e =>
    refine ⟨r', rfl, hr', hext.congr fun k => ?_⟩
    simp
  | ok v =>
    obtain ⟨r'', hrun', hr'', hext'⟩ := hg v rfl r' hr'
    refine ⟨r'', hrun', hr'', (hext.trans hext').congr fun k => ?_⟩
    simp

theorem map {h : α → β} (hq : Computes f s mode q a new) :
    Computes f s mode (h <$> q) (a.map h) new := by
  intro r hr
  obtain ⟨r', hrun, hr', hext⟩ := hq r hr
  refine ⟨r', ?_, hr', hext⟩
  rw [map_eq_pure_bind, run_bind, hrun]
  cases a with
  | error e => rfl
  | ok v => rfl

end Computes

/-- With an analysis the cache holds all that was tried on its account. -/
theorem Consistent.holds_of_attempts (h : Consistent f s mode r)
    (hk : r.cache.holds k) (hx : Attempts (Direct.Succeeds f s mode) [k] x) : r.cache.holds x :=
  hx.induct h.closed fun _ hk' => List.mem_singleton.1 hk' ▸ hk

/-- A line in the log leaves the cache as it is. -/
theorem Consistent.note (h : Consistent f s mode r) (line : String) :
    Consistent f s mode { r with console := r.console.note line } :=
  ⟨h.settings_eq, h.mode_eq, h.result, h.finished, h.nodup, h.closed⟩

theorem built_singleton_iff : Built f s mode [k] x ↔
    Built f s mode k.prerequisites x ∨ (x = k ∧ Direct.Succeeds f s mode k) := by
  rw [Built, Built, Attempts.cons_iff]
  simp only [Attempts.not_nil, and_false, or_false, or_and_right]
  rw [or_comm]
  refine or_congr_right (and_congr_right ?_)
  rintro rfl
  rfl

theorem built_cons_iff : Built f s mode (k :: ks) x ↔
    Built f s mode [k] x ∨ (Direct.Succeeds f s mode k ∧ Built f s mode ks x) := by
  rw [Built, Attempts.cons_iff_singleton, or_and_right, and_assoc]
  rfl

theorem not_built_nil : ¬Built f s mode [] x := fun h => Attempts.not_nil h.1

section remember

variable {wrap : α → AnalysisResult} {kept : Cache → Option α} {keep : Cache → α → Cache} {v : α}

/-- The cache with one more analysis finished. -/
def Cache.finish (c : Cache) (kind : AnalysisKind) (keep : Cache → α → Cache) (v : α) : Cache :=
  { keep c v with finished := (keep c v).finished ++ [kind] }

theorem run_remember_of_some (h : kept r.cache = some v) :
    (Request.remember f k kept keep q).run.run r = (.ok v, r) := by
  rw [Request.remember, run_bind_of_ok (run_get r), h]
  rfl

theorem run_remember_of_none (h : kept r.cache = none) :
    (Request.remember f k kept keep q).run.run r =
      match q.run.run
        { r with console := r.console.note ("computing " ++ k.title ++ " for " ++ f.name.render) } with
      | (.ok v, r') => (.ok v,
          ⟨r'.cache.finish k keep v, r'.console.note (k.title ++ " for " ++ f.name.render ++ ": took")⟩)
      | (.error e, r') => (.error e, r') := by
  have hnote : (Request.note ("computing " ++ k.title ++ " for " ++ f.name.render)).run.run r = (.ok (), _) :=
    rfl
  rw [Request.remember, run_bind_of_ok (run_get r), h]
  dsimp only
  rw [run_bind_of_ok hnote, run_bind]
  obtain ⟨e | v, r'⟩ := q.run.run
    { r with console := r.console.note ("computing " ++ k.title ++ " for " ++ f.name.render) }
  · rfl
  · rfl

theorem Cache.Slot.value?_finish (slot : Cache.Slot k wrap kept keep) (c : Cache) (v : α)
    (x : AnalysisKind) :
    (c.finish k keep v).value? x = if x = k then some (wrap v) else c.value? x := by
  rw [← slot.write]
  cases x <;> rfl

theorem Cache.Slot.holds_finish (slot : Cache.Slot k wrap kept keep) (c : Cache) (v : α)
    (x : AnalysisKind) : (c.finish k keep v).holds x ↔ c.holds x ∨ x = k := by
  rw [Cache.holds, slot.value?_finish]
  split
  · rename_i hx
    simp [hx]
  · rename_i hx
    simp [hx, Cache.holds]

theorem Consistent.finish (slot : Cache.Slot k wrap kept keep) (h : Consistent f s mode r)
    (hk : ¬r.cache.holds k) (hv : Direct.result f s mode k = .ok (wrap v))
    (hneed : ∀ p ∈ k.prerequisites, r.cache.holds p) :
    Consistent f s mode ⟨r.cache.finish k keep v, r.console⟩ where
  settings_eq := (slot.settings r.cache v).trans h.settings_eq
  mode_eq := h.mode_eq
  result x a hx := by
    rw [slot.value?_finish] at hx
    split at hx
    · rename_i hxk
      cases hx
      rw [hxk, hv]
    · exact h.result x a hx
  finished x := by
    rw [slot.holds_finish, ← h.finished, Cache.finish, slot.finished, List.mem_append,
      List.mem_singleton]
  nodup := by
    rw [Cache.finish, slot.finished]
    refine List.nodup_append.2 ⟨h.nodup, List.nodup_singleton k, fun x hx y hy => ?_⟩
    rintro rfl
    rw [List.mem_singleton.1 hy] at hx
    exact hk ((h.finished k).1 hx)
  closed x hx p hp := by
    rw [slot.holds_finish] at hx ⊢
    rcases hx with hx | rfl
    · exact Or.inl (h.closed x hx p hp)
    · exact Or.inl (hneed p hp)

theorem extends_finish (slot : Cache.Slot k wrap kept keep) (hk : ¬r.cache.holds k) (console : Console) :
    Extends r ⟨r.cache.finish k keep v, console⟩ (· = k) := by
  refine ⟨fun x a hx => ?_, slot.holds_finish r.cache v⟩
  rw [slot.value?_finish, if_neg]
  · exact hx
  · rintro rfl
    exact hk (Option.isSome_of_eq_some hx)

/-- A request for an analysis that cannot be built: what its building asks for stays. -/
theorem exists_run_remember_of_error {e : AnalysisFailure} (hkept : kept r.cache = none)
    (hresult : Direct.result f s mode k = .error e)
    (hq : Computes f s mode q (.error e) (Built f s mode k.prerequisites))
    (hr : Consistent f s mode r) :
    ∃ r', (Request.remember f k kept keep q).run.run r = (.error e, r') ∧ Consistent f s mode r' ∧
      Extends r r' (Built f s mode [k]) := by
  rw [run_remember_of_none hkept]
  obtain ⟨r', hrun, hr', hext⟩ := hq _ (hr.note _)
  rw [hrun]
  refine ⟨r', rfl, hr', hext.entry, fun x => ?_⟩
  rw [hext.holds, built_singleton_iff, or_iff_left (b := _ ∧ _)]
  rintro ⟨_, _, hok⟩
  rw [hresult] at hok
  cases hok

/-- A request for an analysis, given what its building asks for: the analysis is added if it can be built. -/
theorem Computes.remember (slot : Cache.Slot k wrap kept keep)
    (hresult : Direct.result f s mode k = a.map wrap)
    (hq : Computes f s mode q a (Built f s mode k.prerequisites)) :
    Computes f s mode (Request.remember f k kept keep q) a (Built f s mode [k]) := by
  intro r hr
  have hread := slot.read r.cache
  cases hkept : kept r.cache with
  | some v =>
    rw [hkept] at hread
    obtain ⟨v', rfl, hv⟩ := map_eq_ok_iff.1 (hresult.symm.trans (hr.result k _ hread))
    obtain rfl := slot.injective hv
    refine ⟨r, run_remember_of_some hkept, hr, fun _ _ h => h, fun x => ?_⟩
    refine (or_iff_left_of_imp fun hx => ?_).symm
    exact hr.holds_of_attempts (Option.isSome_of_eq_some hread) hx.1
  | none =>
    cases a with
    | error e => exact exists_run_remember_of_error hkept hresult hq hr
    | ok v =>
      have hsucceeds : Direct.Succeeds f s mode k := ⟨_, hresult⟩
      rw [run_remember_of_none hkept]
      obtain ⟨r', hrun, hr', hext⟩ := hq _ (hr.note _)
      rw [hrun]
      have hneed : ∀ p ∈ k.prerequisites, r'.cache.holds p := fun p hp =>
        (hext.holds p).2 (Or.inr ⟨.of_mem (fun _ => hsucceeds.of_mem_prerequisites) hp,
          hsucceeds.of_mem_prerequisites hp⟩)
      have hk : ¬r'.cache.holds k := by
        rw [hext.holds]
        rintro (h | h)
        · rw [hkept] at hread
          simp [Cache.holds, hread] at h
        · exact Attempts.not_self h.1
      refine ⟨_, rfl, (hr'.finish slot hk hresult hneed).note _, fun x a hx => ?_, fun x => ?_⟩
      · exact (extends_finish slot hk _).entry x a (hext.entry x a hx)
      · rw [(extends_finish slot hk _).holds, hext.holds, built_singleton_iff, or_assoc,
          and_iff_left hsucceeds]

/-- A request for an analysis that is never kept because it always fails. -/
theorem Computes.remember_of_not_succeeds {q : Request AnalysisResult}
    {keep : Cache → AnalysisResult → Cache} (hk : ¬Direct.Succeeds f s mode k)
    (hq : Computes f s mode q (Direct.result f s mode k) (Built f s mode k.prerequisites)) :
    Computes f s mode (Request.remember f k (fun _ => none) keep q) (Direct.result f s mode k)
      (Built f s mode [k]) := by
  intro r hr
  cases hresult : Direct.result f s mode k with
  | ok v => exact absurd ⟨v, hresult⟩ hk
  | error e => exact exists_run_remember_of_error rfl hresult (hresult ▸ hq) hr

end remember

/-! ### The analyses -/

/-- Asking for an analysis and going on with what it found. -/
theorem Computes.need {wrap : α → AnalysisResult} (hq : Computes f s mode q a (Built f s mode [k]))
    (hresult : Direct.result f s mode k = a.map wrap)
    (hg : ∀ v, Computes f s mode (g v) (b v) (Built f s mode ks)) :
    Computes f s mode (q >>= g) (a >>= b) (Built f s mode (k :: ks)) := by
  have hsucceeds : (∃ v, a = .ok v) ↔ Direct.Succeeds f s mode k := by
    rw [Direct.Succeeds, hresult]
    constructor
    · rintro ⟨v, rfl⟩
      exact ⟨_, rfl⟩
    · rintro ⟨_, h⟩
      obtain ⟨v, hv, -⟩ := map_eq_ok_iff.1 h
      exact ⟨v, hv⟩
  refine (hq.bind fun v _ => hg v).congr fun x => ?_
  rw [hsucceeds]
  exact built_cons_iff.symm

/-- A request that leaves the cache as it is. -/
theorem Extends.none (h : r'.cache = r.cache) : Extends r r' (Built f s mode []) := by
  refine ⟨fun k a ha => h ▸ ha, fun k => ?_⟩
  rw [h, or_iff_left not_built_nil]

/-- Working something out and asking for nothing. -/
theorem Computes.work {ε : Type} (failure : ε → AnalysisFailure) (e : Except ε α) :
    Computes f s mode (Request.ofExcept failure e) (e.mapError failure) (Built f s mode []) :=
  fun r hr => ⟨r, rfl, hr, .none rfl⟩

theorem Computes.pure (v : α) : Computes f s mode (pure v) (.ok v) (Built f s mode []) :=
  fun r hr => ⟨r, rfl, hr, .none rfl⟩

theorem Computes.throw (e : AnalysisFailure) :
    Computes f s mode (throw e : Request α) (.error e) (Built f s mode []) :=
  fun r hr => ⟨r, rfl, hr, .none rfl⟩

theorem computes_flow : Computes f s mode (Request.flow f) (Direct.flow f) (Built f s mode [.flow]) :=
  .remember ⟨fun _ _ h => AnalysisResult.flow.inj h, fun _ => rfl, fun _ _ x => by cases x <;> rfl,
    fun _ _ => rfl, fun _ _ => rfl⟩ rfl (.work _ _)

theorem computes_dominators :
    Computes f s mode (Request.dominators f) (Direct.dominators f) (Built f s mode [.dominators]) :=
  .remember ⟨fun _ _ h => AnalysisResult.tree.inj h, fun _ => rfl, fun _ _ x => by cases x <;> rfl,
    fun _ _ => rfl, fun _ _ => rfl⟩ rfl (computes_flow.need rfl fun _ => .work _ _)

theorem computes_postDominators : Computes f s mode (Request.postDominators f)
    (Direct.postDominators f) (Built f s mode [.postDominators]) :=
  .remember ⟨fun _ _ h => AnalysisResult.tree.inj h, fun _ => rfl, fun _ _ x => by cases x <;> rfl,
    fun _ _ => rfl, fun _ _ => rfl⟩ rfl (computes_flow.need rfl fun _ => .work _ _)

theorem computes_control :
    Computes f s mode (Request.control f) (Direct.control f) (Built f s mode [.control]) :=
  .remember ⟨fun _ _ h => AnalysisResult.control.inj h, fun _ => rfl, fun _ _ x => by cases x <;> rfl,
    fun _ _ => rfl, fun _ _ => rfl⟩ rfl
    (computes_flow.need rfl fun _ => computes_postDominators.need rfl fun _ => .work _ _)

theorem computes_defUse :
    Computes f s mode (Request.defUse f) (Direct.defUse f) (Built f s mode [.defUse]) :=
  .remember ⟨fun _ _ h => AnalysisResult.defUse.inj h, fun _ => rfl, fun _ _ x => by cases x <;> rfl,
    fun _ _ => rfl, fun _ _ => rfl⟩ rfl (.work .breakdown (.ok _))

theorem run_warn (w : Warning) (r : Run) : (Request.warn w).run.run r =
    match r.console.warn w with
    | .ok c => (.ok (), { r with console := c })
    | .error w => (.error (.warning w), r) := by
  show (match r.console.warn w with
    | .ok c => (modify fun r : Run => ⟨r.cache, c⟩ : Request Unit)
    | .error w => throw (AnalysisFailure.warning w)).run.run r = _
  cases r.console.warn w with
  | ok c => rfl
  | error w => rfl

/-- A warning is a failure if warnings are, and is shown or dropped otherwise. -/
theorem Console.warn_cases (c : Console) (w : Warning) :
    (c.filter.mode = .fail ∧ c.warn w = .error w) ∨
      (c.filter.mode ≠ .fail ∧ ∃ c', c.warn w = .ok c' ∧ c'.filter.mode = c.filter.mode) := by
  rw [Console.warn, WarningFilter.pass]
  cases hmode : c.filter.mode with
  | fail => exact Or.inl ⟨rfl, rfl⟩
  | drop => exact Or.inr ⟨nofun, c, rfl, hmode⟩
  | once =>
    refine Or.inr ⟨nofun, ?_⟩
    by_cases hw : w ∈ c.filter.shown
    · exact ⟨c, by rw [if_pos hw], hmode⟩
    · exact ⟨_, by rw [if_neg hw], rfl⟩

theorem Computes.warn (w : Warning) :
    Computes f s mode (Request.warn w) (Direct.warn mode w) (Built f s mode []) := by
  intro r hr
  rw [run_warn, Direct.warn]
  rcases r.console.warn_cases w with ⟨hfail, hw⟩ | ⟨hfail, c, hw, hc⟩
  · rw [hr.mode_eq] at hfail
    rw [hw, if_pos hfail]
    exact ⟨r, rfl, hr, .none rfl⟩
  · rw [hr.mode_eq] at hfail hc
    rw [hw, if_neg hfail]
    exact ⟨_, rfl, ⟨hr.settings_eq, hc, hr.result, hr.finished, hr.nodup, hr.closed⟩, .none rfl⟩

/-- The last step to a dependence graph: a warning about blocks that are left out. -/
theorem computes_dependenceOf (c : Flow) (d : DefUse) (k : Control) :
    Computes f s mode (do
      if !s.includeUnreachable && !c.unreachableBlocks.isEmpty then
        Request.warn (Request.unreachableWarning f c.unreachableBlocks)
      return DependenceGraph.build s c d k) (Direct.dependenceOf f s mode c d k)
      (Built f s mode []) := by
  rw [Direct.dependenceOf]
  split
  · refine ((Computes.warn _).bind fun _ _ => .pure _).congr fun x => ?_
    simp [not_built_nil]
  · exact .pure _

theorem computes_dependence : Computes f s mode (Request.dependence f) (Direct.dependence f s mode)
    (Built f s mode [.dependence]) := by
  refine .remember ⟨fun _ _ h => AnalysisResult.dependence.inj h, fun _ => rfl,
    fun _ _ x => by cases x <;> rfl, fun _ _ => rfl, fun _ _ => rfl⟩ rfl ?_
  refine computes_flow.need rfl fun c => computes_defUse.need rfl fun d =>
    computes_control.need rfl fun k => ?_
  intro r hr
  -- the settings are read from the cache
  obtain ⟨r', hrun, hr'⟩ := computes_dependenceOf c d k r hr
  exact ⟨r', hr.settings_eq ▸ hrun, hr'⟩

theorem computes_ofKind (k : AnalysisKind) : Computes f s mode (Request.ofKind f k)
    (Direct.result f s mode k) (Built f s mode [k]) := by
  cases k with
  | flow => exact computes_flow.map
  | dominators => exact computes_dominators.map
  | postDominators => exact computes_postDominators.map
  | control => exact computes_control.map
  | defUse => exact computes_defUse.map
  | dependence => exact computes_dependence.map
  | abstract =>
    have h : ¬Direct.Succeeds f s mode .abstract := fun ⟨_, h⟩ => nomatch h
    rw [Request.ofKind]
    exact .remember_of_not_succeeds h (.throw .unbuildable)
  | abstractTree =>
    have h : ¬Direct.Succeeds f s mode .abstractTree := by
      rintro ⟨_, h⟩
      obtain ⟨_, _, h⟩ := bind_eq_ok_iff.1 h
      cases h
    rw [Request.ofKind]
    exact .remember_of_not_succeeds h (computes_flow.need rfl fun _ => .throw .unbuildable)

end steps

/-! ### Sequences of requests -/

namespace Run

/-- A fresh cache, and nothing told yet. -/
def fresh (s : Settings) (mode : WarningMode) : Run := ⟨.empty s, .start mode⟩

/-- The answer to one request, and what it leaves. -/
def request (f : Function) (r : Run) (k : AnalysisKind) : Except AnalysisFailure AnalysisResult × Run :=
  (Request.ofKind f k).run.run r

/-- What a sequence of requests leaves. -/
def afterAll (f : Function) (r : Run) (ks : List AnalysisKind) : Run :=
  ks.foldl (fun r k => (r.request f k).2) r

/-- The answers to a sequence of requests. -/
def answers (f : Function) (r : Run) : List AnalysisKind → List (Except AnalysisFailure AnalysisResult)
  | [] => []
  | k :: ks => (r.request f k).1 :: answers f (r.request f k).2 ks

/-- The answer to a request that is the only one. -/
def alone (f : Function) (s : Settings) (mode : WarningMode) (k : AnalysisKind) :
    Except AnalysisFailure AnalysisResult :=
  ((fresh s mode).request f k).1

end Run

section history

variable {f : Function} {s : Settings} {mode : WarningMode} {r : Run} {ks : List AnalysisKind}

theorem consistent_empty (f : Function) (s : Settings) (console : Console) :
    Consistent f s console.filter.mode ⟨.empty s, console⟩ where
  settings_eq := rfl
  mode_eq := rfl
  result k a h := by cases k <;> cases h
  finished k := by cases k <;> simp [Cache.empty, Cache.holds, Cache.value?]
  nodup := List.nodup_nil
  closed k h := by cases k <;> cases h

theorem request_fst (hr : Consistent f s mode r) (k : AnalysisKind) :
    (r.request f k).1 = Direct.result f s mode k := by
  obtain ⟨r', hrun, _⟩ := computes_ofKind k r hr
  rw [Run.request, hrun]

theorem request_snd (hr : Consistent f s mode r) (k : AnalysisKind) :
    Consistent f s mode (r.request f k).2 ∧ Extends r (r.request f k).2 (Built f s mode [k]) := by
  obtain ⟨r', hrun, hr'⟩ := computes_ofKind k r hr
  rw [Run.request, hrun]
  exact hr'

theorem alone_eq (f : Function) (s : Settings) (mode : WarningMode) :
    Run.alone f s mode = Direct.result f s mode :=
  funext fun k => request_fst (consistent_empty f s (.start mode)) k

theorem answers_eq (hr : Consistent f s mode r) (ks : List AnalysisKind) :
    Run.answers f r ks = ks.map (Direct.result f s mode) := by
  induction ks generalizing r with
  | nil => rfl
  | cons k ks ih => rw [Run.answers, request_fst hr, ih (request_snd hr k).1, List.map_cons]

/-- What a sequence leaves: a consistent cache with what each request tried with success. -/
theorem consistent_afterAll (hr : Consistent f s mode r) (ks : List AnalysisKind) :
    Consistent f s mode (r.afterAll f ks) ∧
      Extends r (r.afterAll f ks) fun x => ∃ k ∈ ks, Built f s mode [k] x := by
  induction ks generalizing r with
  | nil => exact ⟨hr, fun _ _ h => h, fun x => by simp [Run.afterAll]⟩
  | cons k ks ih =>
    obtain ⟨hr', hext⟩ := request_snd hr k
    obtain ⟨hr'', hext'⟩ := ih hr'
    refine ⟨hr'', (hext.trans hext').congr fun x => ?_⟩
    simp

/-- Requests do not depend on history. In any sequence of requests on one cache, each is answered as if it
    were the only one on a fresh cache. The cache then holds what some request tried with success, for
    itself or on account of another analysis. A further request leaves every entry as it is, and does not
    add its own analysis if it fails. An analysis is listed as finished each time it is built, and none
    is listed twice. -/
theorem requests_independent (f : Function) (s : Settings) (console : Console)
    (ks : List AnalysisKind) :
    let alone := Run.alone f s console.filter.mode
    let succeeds k := ∃ a, alone k = .ok a
    let start : Run := ⟨.empty s, console⟩
    let r := start.afterAll f ks
    start.answers f ks = ks.map alone ∧
      (∀ x, r.cache.holds x ↔ (∃ k ∈ ks, Attempts succeeds [k] x) ∧ succeeds x) ∧
      (∀ k x a, r.cache.value? x = some a → (r.request f k).2.cache.value? x = some a) ∧
      (∀ k e, (r.request f k).1 = .error e → ¬(r.request f k).2.cache.holds k) ∧
      r.cache.finished.Nodup ∧ ∀ x, x ∈ r.cache.finished ↔ r.cache.holds x := by
  intro alone succeeds start r
  have hstart := consistent_empty f s console
  obtain ⟨hr, hext⟩ := consistent_afterAll hstart ks
  have halone : alone = Direct.result f s console.filter.mode := alone_eq f s _
  refine ⟨?_, fun x => ?_, fun k => (request_snd hr k).2.entry, fun k e he hk => ?_, hr.nodup,
    hr.finished⟩
  · rw [halone]
    exact answers_eq hstart ks
  · have hnone : ¬start.cache.holds x := by
      rw [← hstart.finished]
      exact List.not_mem_nil
    have hsucceeds : succeeds = Direct.Succeeds f s console.filter.mode := by
      funext k
      rw [Direct.Succeeds, ← halone]
    rw [hext.holds, or_iff_right hnone, hsucceeds]
    simp only [Built, ← and_assoc, exists_and_right]
  · obtain ⟨a, ha⟩ := Option.isSome_iff_exists.1 hk
    rw [request_fst hr, (request_snd hr k).1.result k a ha] at he
    cases he

-- asked for twice, the control dependences are built once, with what they rest on
example :
    let r := (Run.fresh .default .once).afterAll Restless.function [.control, .flow, .control]
    r.cache.finished = [.flow, .postDominators, .control] ∧ r.cache.flow.isSome = true := by
  cbv

end history

end ProgDep
