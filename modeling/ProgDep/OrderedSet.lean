/-! Sets that keep the order in which their members came. A member that comes again stays where it
    was; one that was removed and comes again goes to the end. Two such sets are the same set when they
    have the same members, whatever the order. `distinct` is the list underneath: the first occurrence
    of each item, in order. -/

namespace ProgDep

/-- The items of a list, each where it first occurs. -/
def distinct {α : Type} [DecidableEq α] : List α → List α
  | [] => []
  | x :: xs => x :: (distinct xs).filter (· ≠ x)

section distinct

variable {α : Type} [DecidableEq α]

@[simp]
theorem mem_distinct {x : α} {xs : List α} : x ∈ distinct xs ↔ x ∈ xs := by
  induction xs with
  | nil => simp [distinct]
  | cons y ys ih =>
    by_cases h : x = y
    · simp [distinct, h]
    · simp [distinct, h, ih]

theorem nodup_distinct (xs : List α) : (distinct xs).Nodup := by
  induction xs with
  | nil => simp [distinct]
  | cons y ys ih => exact List.nodup_cons.2 ⟨by simp, List.Pairwise.filter _ ih⟩

/-- A list without repetitions is its own list of first occurrences. -/
theorem distinct_of_nodup {xs : List α} (h : xs.Nodup) : distinct xs = xs := by
  induction xs with
  | nil => rfl
  | cons y ys ih =>
    rw [List.nodup_cons] at h
    rw [distinct, ih h.2, List.filter_eq_self.2]
    intro x hx
    have : x ≠ y := fun e => h.1 (e ▸ hx)
    simpa using this

end distinct

/-- A set that keeps the order in which its members came. -/
structure OrderedSet (α : Type) where
  toList : List α
  nodup : toList.Nodup

namespace OrderedSet

variable {α : Type} [DecidableEq α]

/-- The members of a list, in the order of their first occurrence. -/
def ofList (xs : List α) : OrderedSet α := ⟨distinct xs, nodup_distinct xs⟩

/-- Adds a member at the end, unless it is there. -/
def insert (s : OrderedSet α) (x : α) : OrderedSet α := ofList (s.toList ++ [x])

/-- Adds the members of a list one after the other. -/
def insertAll (s : OrderedSet α) (xs : List α) : OrderedSet α := ofList (s.toList ++ xs)

/-- Whether `x` is a member. -/
def contains (s : OrderedSet α) (x : α) : Bool := decide (x ∈ s.toList)

/-- Takes a member out; there is no result when it is not there. -/
def erase? (s : OrderedSet α) (x : α) : Option (OrderedSet α) :=
  if x ∈ s.toList then some ⟨s.toList.filter (· ≠ x), List.Pairwise.filter _ s.nodup⟩ else none

/-- The number of members. -/
def size (s : OrderedSet α) : Nat := s.toList.length

/-- Same members, in any order. -/
def sameMembers (s t : OrderedSet α) : Bool :=
  s.toList.all t.contains && t.toList.all s.contains

/-- Members carry no values, so looking one up is refused with this text. -/
def lookupRefusal : String := "OrderedSet does not support get(), use `in`"

/-- The members in braces, each as `item` writes it. -/
def render (s : OrderedSet α) (item : α → String) : String :=
  "\x7b" ++ String.intercalate ", " (s.toList.map item) ++ "\x7d"

@[simp]
theorem mem_toList_ofList {x : α} {xs : List α} : x ∈ (ofList xs).toList ↔ x ∈ xs := mem_distinct

@[simp]
theorem contains_insert (s : OrderedSet α) (x y : α) :
    (s.insert x).contains y = (s.contains y || decide (y = x)) := by
  simp [insert, contains]

theorem sameMembers_iff (s t : OrderedSet α) :
    s.sameMembers t = true ↔ ∀ x, x ∈ s.toList ↔ x ∈ t.toList := by
  simp only [sameMembers, contains, Bool.and_eq_true, List.all_eq_true, decide_eq_true_eq]
  exact ⟨fun h x => ⟨h.1 x, h.2 x⟩, fun h => ⟨fun x => (h x).1, fun x => (h x).2⟩⟩

end OrderedSet

end ProgDep
