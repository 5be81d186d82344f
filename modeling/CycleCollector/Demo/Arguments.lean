import CycleCollector.Refcount
/-!
# Arguments of the demonstration

The demonstration takes switches (`--bridged`) and counts (`--rings 4` or `--rings=4`), each at most
once and in any order. A count is a decimal number that fits a word, with or without a plus sign.
Nothing else is accepted; a lone `--` may end the arguments.

## Main definitions

* `Demo.Arguments`: what the demonstration is to do.
* `Demo.Arguments.parse?`: reads them from the command line.
-/

namespace CycleCollector.Demo

structure Arguments where
  rings : Nat := 4
  ringSize : Nat := 3
  /-- Link the first object of each ring to a host object. -/
  bridged : Bool := false
  /-- Bridged rings whose host object is a root. -/
  rooted : Nat := 0
  /-- Rings held from outside both heaps. -/
  held : Nat := 0
  /-- Change a reference of the first ring before the first verdict. -/
  mutate : Bool := false
  /-- Only sweep. -/
  disableCycles : Bool := false
  /-- Scans in one marking step, as many as it takes if absent. -/
  scansPerStep : Option Nat := none
  /-- Let handed-over host objects wait until the step has ended. -/
  lazyHostTrace : Bool := false
  rounds : Nat := 2
deriving DecidableEq, Repr, Inhabited

inductive Switch where
  | bridged | mutate | disableCycles | lazyHostTrace
deriving DecidableEq, Repr

/-- An argument whose value is a count. -/
inductive Quantity where
  | rings | ringSize | rooted | held | scansPerStep | rounds
deriving DecidableEq, Repr

inductive Setting where
  | switch (name : Switch)
  | quantity (name : Quantity) (count : Nat)
deriving DecidableEq, Repr

namespace Switch

def table : List (String × Switch) :=
  [("--bridged", .bridged), ("--mutate", .mutate), ("--disable-cycles", .disableCycles),
    ("--lazy-host-trace", .lazyHostTrace)]

def named? (text : String) : Option Switch := table.lookup text

end Switch

namespace Quantity

def table : List (String × Quantity) :=
  [("--rings", .rings), ("--ring-size", .ringSize), ("--rooted", .rooted), ("--held", .held),
    ("--scans-per-step", .scansPerStep), ("--rounds", .rounds)]

def named? (text : String) : Option Quantity := table.lookup text

end Quantity

def digits? (text : List Char) : Option Nat :=
  if text ≠ [] ∧ text.all Char.isDigit then
    some (text.foldl (fun n c => 10 * n + (c.toNat - '0'.toNat)) 0)
  else none

/-- Reads a count: digits, perhaps after a plus sign, whose value fits a word. -/
def count? (text : String) : Option Nat :=
  let value := match text.toList with
    | '+' :: digits => digits? digits
    | digits => digits? digits
  value.filter (· < Refcount.limit)

namespace Setting

def subject : Setting → Switch ⊕ Quantity
  | .switch name => .inl name
  | .quantity name _ => .inr name

/-- Splits an argument at its first equals sign: the name, and the value if there is a sign. -/
def splitValue (text : String) : String × Option String :=
  let chars := text.toList
  (String.ofList (chars.takeWhile (· ≠ '=')),
    (chars.dropWhile (· ≠ '=')).tail?.map String.ofList)

/-- Reads arguments from left to right; nothing if one of them is not understood. -/
def readAll? : List String → Option (List Setting)
  | [] => some []
  | text :: rest =>
    if text = "--" then if rest = [] then some [] else none
    else match Switch.named? text with
      | some name => (.switch name :: ·) <$> readAll? rest
      | none => do
        let (name, value) := splitValue text
        let name ← Quantity.named? name
        match value, rest with
        | some value, rest => return .quantity name (← count? value) :: (← readAll? rest)
        | none, value :: rest => return .quantity name (← count? value) :: (← readAll? rest)
        | none, [] => none

def apply (args : Arguments) : Setting → Arguments
  | .switch .bridged => { args with bridged := true }
  | .switch .mutate => { args with mutate := true }
  | .switch .disableCycles => { args with disableCycles := true }
  | .switch .lazyHostTrace => { args with lazyHostTrace := true }
  | .quantity .rings n => { args with rings := n }
  | .quantity .ringSize n => { args with ringSize := n }
  | .quantity .rooted n => { args with rooted := n }
  | .quantity .held n => { args with held := n }
  | .quantity .scansPerStep n => { args with scansPerStep := some n }
  | .quantity .rounds n => { args with rounds := n }

end Setting

/-- Reads the command line; nothing if it is not understood or sets something twice. -/
def Arguments.parse? (texts : List String) : Option Arguments := do
  let settings ← Setting.readAll? texts
  if (settings.map Setting.subject).Nodup then
    return settings.foldl Setting.apply {}
  else none

end CycleCollector.Demo
