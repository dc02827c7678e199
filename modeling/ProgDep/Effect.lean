import ProgDep.Instruction

/-! State outside the operands. It falls into classes; each opcode reads some and writes some, and two
    accesses of which the second may see or overwrite what the first did are in conflict. Eight opcodes
    touch a single word at one address; for all others the whole class counts as touched. -/

namespace ProgDep

/-- The classes of state that instructions share. -/
inductive StateClass where
  | storage | transient | memory | msize | immutables | returndata | log | balance | extcode
  deriving DecidableEq, Repr

namespace StateClass

/-- All classes, in their canonical order. -/
def all : List StateClass :=
  [.storage, .transient, .memory, .msize, .immutables, .returndata, .log, .balance, .extcode]

theorem mem_all (c : StateClass) : c ∈ all := by cases c <;> decide

/-- The name of a class. -/
def name : StateClass → String
  | .storage => "STORAGE"
  | .transient => "TRANSIENT"
  | .memory => "MEMORY"
  | .msize => "MSIZE"
  | .immutables => "IMMUTABLES"
  | .returndata => "RETURNDATA"
  | .log => "LOG"
  | .balance => "BALANCE"
  | .extcode => "EXTCODE"

/-- The class of the given name. -/
def ofName? (s : String) : Option StateClass := all.find? (·.name = s)

/-- State that grows when touched, which the size of memory shows. -/
def isExpandable : StateClass → Bool
  | .memory | .immutables => true
  | _ => false

/-- How many addresses one word covers: memory is addressed by byte, storage by slot. -/
def wordSize : StateClass → Nat
  | .memory | .immutables => 32
  | _ => 1

end StateClass

/-- A set of state classes. -/
structure Effects where
  has : StateClass → Bool

namespace Effects

def none : Effects := ⟨fun _ => false⟩

def all : Effects := ⟨fun _ => true⟩

def only (c : StateClass) : Effects := ⟨fun d => decide (d = c)⟩

def ofList (cs : List StateClass) : Effects := ⟨fun c => decide (c ∈ cs)⟩

def toList (e : Effects) : List StateClass := StateClass.all.filter e.has

def union (e f : Effects) : Effects := ⟨fun c => e.has c || f.has c⟩

def inter (e f : Effects) : Effects := ⟨fun c => e.has c && f.has c⟩

def without (e f : Effects) : Effects := ⟨fun c => e.has c && !f.has c⟩

def isEmpty (e : Effects) : Bool := StateClass.all.all fun c => !e.has c

theorem isEmpty_iff (e : Effects) : e.isEmpty = true ↔ ∀ c, e.has c = false := by
  simp only [isEmpty, List.all_eq_true, Bool.not_eq_true']
  exact ⟨fun h c => h c c.mem_all, fun h c _ => h c⟩

end Effects

namespace Opcode

/-- Opcodes that hand control to other code. -/
def calls : List String := ["call", "delegatecall", "staticcall", "create", "create2", "invoke"]

/-- The state that an opcode reads; a call may read all of it. -/
def reads (opcode : String) : Effects :=
  if opcode ∈ calls then .all
  else
    match opcode with
    | "sload" => .only .storage
    | "tload" => .only .transient
    | "mload" | "mcopy" | "sha3" | "sha3_64" | "log" | "return" | "revert" => .only .memory
    | "iload" => .only .immutables
    | "msize" => .only .msize
    | "returndatasize" | "returndatacopy" => .only .returndata
    | "balance" | "selfbalance" | "selfdestruct" => .only .balance
    | "extcodesize" | "extcodehash" | "extcodecopy" => .only .extcode
    | _ => .none

/-- The state that an opcode writes, the size of memory apart. -/
def directWrites (opcode : String) : Effects :=
  match opcode with
  | "sstore" => .only .storage
  | "tstore" => .only .transient
  | "mstore" | "mcopy" | "calldatacopy" | "codecopy" | "extcodecopy" | "returndatacopy" |
    "dload" | "dloadbytes" => .only .memory
  | "istore" => .only .immutables
  | "log" => .only .log
  | "call" | "delegatecall" => .without .all (.only .immutables)
  | "staticcall" => .ofList [.memory, .returndata]
  | "create" | "create2" => .without .all (.ofList [.memory, .immutables])
  | "invoke" => .all
  | _ => .none

/-- The state that an opcode writes. Touching state that grows also moves the size of memory. -/
def writes (opcode : String) : Effects :=
  let touched := (reads opcode).union (directWrites opcode)
  if StateClass.all.any fun c => c.isExpandable && touched.has c then
    (directWrites opcode).union (.only .msize)
  else directWrites opcode

/-- The opcodes that touch one word: the class of state, and which stored operand is the address. -/
def wordAccess? (opcode : String) : Option (StateClass × Nat) :=
  match opcode with
  | "mload" => some (.memory, 0)
  | "mstore" => some (.memory, 1)
  | "sload" => some (.storage, 0)
  | "sstore" => some (.storage, 1)
  | "tload" => some (.transient, 0)
  | "tstore" => some (.transient, 1)
  | "iload" => some (.immutables, 0)
  | "istore" => some (.immutables, 1)
  | _ => none

end Opcode

namespace Effects

/-- The classes through which a later access may see or overwrite an earlier one. Two reads never
    conflict, and two writes that meet in the size of memory alone need no order. -/
def conflicts (earlierReads earlierWrites laterReads laterWrites : Effects) : Effects :=
  ((earlierWrites.inter laterReads).union (earlierReads.inter laterWrites)).union
    ((earlierWrites.inter laterWrites).without (.only .msize))

end Effects

namespace Instruction

def reads (i : Instruction) : Effects := Opcode.reads i.opcode

def writes (i : Instruction) : Effects := Opcode.writes i.opcode

/-- Whether the instruction touches state at all. -/
def touchesState (i : Instruction) : Bool := !(i.reads.union i.writes).isEmpty

/-- The address of a word access, when it is a literal. -/
def literalAddress? (i : Instruction) : Option (StateClass × Int) :=
  match Opcode.wordAccess? i.opcode with
  | none => none
  | some (space, index) =>
    match i.operands[index]? with
    | some (.lit address) => some (space, address)
    | _ => none

/-- Two word accesses to one class of state, at literal addresses too far apart to overlap. -/
def provablyDisjoint (i j : Instruction) : Bool :=
  match i.literalAddress?, j.literalAddress? with
  | some (s, a), some (t, b) => decide (s = t) && decide (s.wordSize ≤ (a - b).natAbs)
  | _, _ => false

/-- The classes of state in which `later` must come after `earlier`. -/
def conflicts (earlier later : Instruction) : Effects :=
  Effects.conflicts earlier.reads earlier.writes later.reads later.writes

/-- Whether `later` must stay after `earlier` because of the state they touch. When they conflict only
    in the class of a word access, the addresses may still tell them apart. -/
def mayDepend (earlier later : Instruction) : Bool :=
  let shared := earlier.conflicts later
  if shared.isEmpty then false
  else
    match Opcode.wordAccess? earlier.opcode with
    | some (space, _) =>
      if (shared.without (.only space)).isEmpty then !earlier.provablyDisjoint later else true
    | none => true

end Instruction

end ProgDep
