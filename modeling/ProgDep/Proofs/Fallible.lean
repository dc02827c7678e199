import Mathlib.Data.List.Forall2
import Mathlib.Data.List.Induction

/-! Computations that may fail. The result of a sequence, of a list of results or of a fold is said by the
    results of its parts, and a failure is that of the first part that fails. Where a computation changes a
    state as well, what was done before a failure stays done. -/

namespace ProgDep

section results

variable {α β ε : Type} {f : α → Except ε β} {r : Except ε α} {xs : List α} {ys : List β} {y : β}

theorem bind_eq_ok_iff : (r >>= f) = .ok y ↔ ∃ x, r = .ok x ∧ f x = .ok y := by
  cases r with
  | error e => exact ⟨fun h => (by cases h), fun ⟨_, h, _⟩ => (by cases h)⟩
  | ok x => exact ⟨fun h => ⟨x, rfl, h⟩, fun ⟨_, h, hy⟩ => (by cases h; exact hy)⟩

theorem bind_eq_error_iff {e : ε} :
    (r >>= f) = .error e ↔ r = .error e ∨ ∃ x, r = .ok x ∧ f x = .error e := by
  cases r with
  | error e' =>
    constructor
    · intro h
      cases h
      exact Or.inl rfl
    · rintro (h | ⟨_, h, _⟩)
      · cases h
        rfl
      · cases h
  | ok x =>
    constructor
    · exact fun h => Or.inr ⟨x, rfl, h⟩
    · rintro (h | ⟨_, h, he⟩)
      · cases h
      · cases h
        exact he

theorem map_eq_ok_iff {h : α → β} : r.map h = .ok y ↔ ∃ x, r = .ok x ∧ h x = y := by
  cases r with
  | error e => exact ⟨fun he => (by cases he), fun ⟨_, he, _⟩ => (by cases he)⟩
  | ok x => exact ⟨fun he => ⟨x, rfl, Except.ok.inj he⟩, fun ⟨_, he, hy⟩ => (by cases he; rw [← hy]; rfl)⟩

theorem map_eq_error_iff {h : α → β} {e : ε} : r.map h = .error e ↔ r = .error e := by
  cases r with
  | error e => exact ⟨fun he => (by cases he; rfl), fun he => (by cases he; rfl)⟩
  | ok y => exact ⟨fun he => (by cases he), fun he => (by cases he)⟩

theorem mapError_eq_ok_iff {ε' : Type} {h : ε → ε'} {x : α} : r.mapError h = .ok x ↔ r = .ok x := by
  cases r with
  | error e => exact ⟨fun he => (by cases he), fun he => (by cases he)⟩
  | ok x => exact ⟨fun he => (by cases he; rfl), fun he => (by cases he; rfl)⟩

theorem mapError_eq_error_iff {ε' : Type} {h : ε → ε'} {e' : ε'} :
    r.mapError h = .error e' ↔ ∃ e, r = .error e ∧ h e = e' := by
  cases r with
  | error e =>
    constructor
    · intro he
      exact ⟨e, rfl, Except.error.inj he⟩
    · rintro ⟨_, he, rfl⟩
      cases he
      rfl
  | ok x =>
    constructor
    · intro he
      cases he
    · rintro ⟨_, he, _⟩
      cases he

theorem exists_ok_map_iff {h : α → β} : (∃ y, r.map h = .ok y) ↔ ∃ x, r = .ok x := by
  simp only [map_eq_ok_iff]
  exact ⟨fun ⟨_, x, hx, _⟩ => ⟨x, hx⟩, fun ⟨x, hx⟩ => ⟨_, x, hx, rfl⟩⟩

/-! ### Lists of results -/

/-- A list of results is there when every item has its result. -/
theorem mapM_eq_ok_iff : ∀ {xs : List α} {ys : List β},
    xs.mapM f = .ok ys ↔ List.Forall₂ (fun x y => f x = .ok y) xs ys
  | [], ys => by
    rw [List.mapM_nil, List.forall₂_nil_left_iff]
    exact ⟨fun h => (Except.ok.inj h).symm, fun h => h ▸ rfl⟩
  | x :: xs, ys => by
    rw [List.mapM_cons, List.forall₂_cons_left_iff]
    cases hx : f x with
    | error e => exact ⟨fun h => (by cases h), fun ⟨y, _, h, _⟩ => (by cases h)⟩
    | ok y =>
      cases hxs : xs.mapM f with
      | error e =>
        refine ⟨fun h => (by cases h), ?_⟩
        rintro ⟨_, ys', _, hys, _⟩
        rw [mapM_eq_ok_iff.2 hys] at hxs
        cases hxs
      | ok ys' =>
        constructor
        · intro h
          cases h
          exact ⟨y, ys', rfl, mapM_eq_ok_iff.1 hxs, rfl⟩
        · rintro ⟨_, ys'', hy, hys, rfl⟩
          cases hy
          rw [mapM_eq_ok_iff.2 hys] at hxs
          cases hxs
          rfl

theorem mem_of_mapM_eq_ok (h : xs.mapM f = .ok ys) : y ∈ ys ↔ ∃ x ∈ xs, f x = .ok y := by
  rw [mapM_eq_ok_iff] at h
  induction h with
  | nil => simp
  | @cons x y' xs ys hx _ ih =>
    rw [List.mem_cons, ih]
    constructor
    · rintro (rfl | ⟨x', hx', hy⟩)
      · exact ⟨x, List.mem_cons_self, hx⟩
      · exact ⟨x', List.mem_cons_of_mem x hx', hy⟩
    · rintro ⟨x', hx', hy⟩
      rcases List.mem_cons.1 hx' with rfl | hx'
      · rw [hx] at hy
        cases hy
        exact Or.inl rfl
      · exact Or.inr ⟨x', hx', hy⟩

theorem exists_of_forall₂ {R : α → β → Prop} {x : α} (h : List.Forall₂ R xs ys) (hx : x ∈ xs) :
    ∃ y ∈ ys, R x y := by
  induction h with
  | nil => cases hx
  | @cons x' y xs ys hy _ ih =>
    rcases List.mem_cons.1 hx with rfl | hx
    · exact ⟨y, List.mem_cons_self, hy⟩
    · obtain ⟨z, hz, hxz⟩ := ih hx
      exact ⟨z, List.mem_cons_of_mem y hz, hxz⟩

theorem exists_of_forall₂_right {R : α → β → Prop} (h : List.Forall₂ R xs ys) (hy : y ∈ ys) :
    ∃ x ∈ xs, R x y :=
  exists_of_forall₂ (List.Forall₂.flip (R := flip R) h) hy

theorem exists_mapM_eq_ok : ∀ {xs : List α}, (∀ x ∈ xs, ∃ y, f x = .ok y) → ∃ ys, xs.mapM f = .ok ys
  | [], _ => ⟨[], rfl⟩
  | x :: xs, h => by
    obtain ⟨y, hy⟩ := h x List.mem_cons_self
    obtain ⟨ys, hys⟩ := exists_mapM_eq_ok fun x' hx' => h x' (List.mem_cons_of_mem x hx')
    exact ⟨y :: ys, mapM_eq_ok_iff.2 (.cons hy (mapM_eq_ok_iff.1 hys))⟩

theorem exists_mapM_iff : (∃ ys, xs.mapM f = .ok ys) ↔ ∀ x ∈ xs, ∃ y, f x = .ok y := by
  refine ⟨?_, exists_mapM_eq_ok⟩
  rintro ⟨ys, hys⟩ x hx
  obtain ⟨y, _, hy⟩ := exists_of_forall₂ (mapM_eq_ok_iff.1 hys) hx
  exact ⟨y, hy⟩

/-- A list of results is missing because of its first item without one. -/
theorem mapM_eq_error_iff {e : ε} : ∀ {xs : List α}, xs.mapM f = .error e ↔
    ∃ before x after, xs = before ++ x :: after ∧ (∀ y ∈ before, ∃ z, f y = .ok z) ∧ f x = .error e
  | [] => by
    refine ⟨fun h => (by cases h), ?_⟩
    rintro ⟨before, x, after, h, _⟩
    simp at h
  | x :: xs => by
    rw [List.mapM_cons, bind_eq_error_iff]
    constructor
    · rintro (hx | ⟨y, hy, h⟩)
      · exact ⟨[], x, xs, rfl, by simp, hx⟩
      · rcases bind_eq_error_iff.1 h with h | ⟨ys, _, h⟩
        · obtain ⟨before, x', after, rfl, hbefore, hx'⟩ := mapM_eq_error_iff.1 h
          exact ⟨x :: before, x', after, rfl, List.forall_mem_cons.2 ⟨⟨y, hy⟩, hbefore⟩, hx'⟩
        · cases h
    · rintro ⟨before, x', after, h, hbefore, hx'⟩
      cases before with
      | nil =>
        cases h
        exact Or.inl hx'
      | cons y before =>
        cases h
        obtain ⟨⟨z, hz⟩, hbefore⟩ := List.forall_mem_cons.1 hbefore
        exact Or.inr ⟨z, hz, bind_eq_error_iff.2 (Or.inl (mapM_eq_error_iff.2 ⟨_, _, _, rfl, hbefore, hx'⟩))⟩

theorem mapM_eq_ok_map {k : α → β} (h : ∀ x ∈ xs, f x = .ok (k x)) : xs.mapM f = .ok (xs.map k) := by
  rw [mapM_eq_ok_iff, List.forall₂_map_right_iff, List.forall₂_same]
  exact h

/-- A list is read back if its members are. -/
theorem mapM_map_eq_ok {γ : Type} {g : γ → α} {k : γ → β} {zs : List γ}
    (hread : ∀ z ∈ zs, f (g z) = .ok (k z)) : (zs.map g).mapM f = .ok (zs.map k) := by
  rw [List.mapM_map]
  exact mapM_eq_ok_map hread

end results

/-! ### Folds -/

section folds

variable {α β ε ι : Type} {g : α → ι → Except ε α} {a a' : α} {e : ε} {is : List ι}

/-- A fold that fails has a first item at which it does. -/
theorem foldlM_eq_error_iff : is.foldlM g a = .error e ↔
    ∃ before i after b, is = before ++ i :: after ∧ before.foldlM g a = .ok b ∧ g b i = .error e := by
  induction is generalizing a with
  | nil =>
    constructor
    · intro h
      cases h
    · rintro ⟨before, i, after, b, h, _⟩
      simp at h
  | cons i is ih =>
    rw [List.foldlM_cons, bind_eq_error_iff]
    constructor
    · rintro (h | ⟨b, hb, h⟩)
      · exact ⟨[], i, is, a, rfl, rfl, h⟩
      · obtain ⟨before, j, after, b', rfl, hbefore, hj⟩ := ih.1 h
        refine ⟨i :: before, j, after, b', rfl, ?_, hj⟩
        rw [List.foldlM_cons]
        exact bind_eq_ok_iff.2 ⟨b, hb, hbefore⟩
    · rintro ⟨before, j, after, b', his, hbefore, hj⟩
      cases before with
      | nil =>
        cases his
        cases hbefore
        exact Or.inl hj
      | cons i' before =>
        cases his
        rw [List.foldlM_cons] at hbefore
        obtain ⟨b, hb, hbefore⟩ := bind_eq_ok_iff.1 hbefore
        exact Or.inr ⟨b, hb, ih.2 ⟨before, j, after, b', rfl, hbefore, hj⟩⟩

/-- If each step of a fold can be followed by a step of another fold, so can the whole fold. -/
theorem exists_foldlM_eq_ok {h : β → ι → Except ε β} {R : α → β → Prop}
    (hstep : ∀ a b a' i, R a b → g a i = .ok a' → ∃ b', h b i = .ok b' ∧ R a' b') {b : β} (hab : R a b)
    (ha : is.foldlM g a = .ok a') : ∃ b', is.foldlM h b = .ok b' ∧ R a' b' := by
  induction is generalizing a b with
  | nil =>
    cases ha
    exact ⟨b, rfl, hab⟩
  | cons i is ih =>
    rw [List.foldlM_cons] at ha
    obtain ⟨a'', hi, ha⟩ := bind_eq_ok_iff.1 ha
    obtain ⟨b'', hi', hab'⟩ := hstep a b a'' i hab hi
    obtain ⟨b', hb', hrel⟩ := ih hab' ha
    refine ⟨b', ?_, hrel⟩
    rw [List.foldlM_cons, hi']
    exact hb'

/-- If each step leads on from what the items before it come to, a fold comes to what all its items do. -/
theorem foldlM_eq_some_of_step {step : α → ι → Option α} (state : List ι → α)
    (h : ∀ js, ∀ i ∈ is, step (state js) i = some (state (js ++ [i]))) :
    is.foldlM step (state []) = some (state is) := by
  induction is using List.reverseRecOn with
  | nil => rfl
  | append_singleton is i ih =>
    rw [List.foldlM_append, ih fun js j hj => h js j (List.mem_append_left _ hj)]
    simp [h]

end folds

/-! ### Changes of a state -/

section steps

variable {α β ε σ : Type} {q : ExceptT ε (StateM σ) α} {g : α → ExceptT ε (StateM σ) β} {v : α} {e : ε}
  {s s' : σ}

/-- A failure ends a sequence of steps; what was done before it stays done. -/
theorem run_bind (q : ExceptT ε (StateM σ) α) (g : α → ExceptT ε (StateM σ) β) (s : σ) :
    (q >>= g).run.run s =
      match q.run.run s with
      | (.ok v, s') => (g v).run.run s'
      | (.error e, s') => (.error e, s') := by
  show (ExceptT.bindCont g (q.run.run s).1).run (q.run.run s).2 = _
  obtain ⟨v | v, s'⟩ := q.run.run s
  · rfl
  · rfl

theorem run_bind_of_ok (h : q.run.run s = (.ok v, s')) : (q >>= g).run.run s = (g v).run.run s' := by
  rw [run_bind, h]

theorem run_bind_of_error (h : q.run.run s = (.error e, s')) :
    (q >>= g).run.run s = (.error e, s') := by
  rw [run_bind, h]

theorem run_get (s : σ) : (get : ExceptT ε (StateM σ) σ).run.run s = (.ok s, s) := rfl

end steps

end ProgDep
