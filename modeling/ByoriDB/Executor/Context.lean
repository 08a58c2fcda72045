import ByoriDB.Graph.Record

namespace ByoriDB.Executor

open Program ByoriDB.Graph

structure Response where
  columns : List String
  rows : List (List Value)

/-- The parts of the execution context the standalone executor reads.  `hash` is
the hash of external vertex ids, `vars` are the results bound by earlier clauses
and `json` is the text of a record in an answer; a limit of zero means no limit. -/
structure Ctx where
  space : Option String
  spaceId : Option Nat
  isAdmin : Bool
  maxTraversalNodes : Nat
  maxMemoryMb : Nat
  hash : String → UInt64
  vars : String → Option Response
  json : Value → String

/-- A computation of the executor: store operations, or an error. -/
abbrev Exec := Prog (Store.signature Key Val) ExecutionError

abbrev World := Store.World Key Val

abbrev Env := Store.Env Key Val

/-- The layout of the executor's own records.  Lengths are not tracked here, and
scans list their entries in the order of the keys. -/
def recordLayout : Store.Layout Key Val where
  keyLen := fun _ => 0
  valueLen := fun _ => 0
  counterOf
    | .count number => some number
    | _ => none
  looseCounter
    | .count number => number
    | _ => 0
  counter := .count
  looseCounter_of_counterOf := by
    intro value count found
    cases value <;> simp_all
  arrange := id
  arrange_perm := fun entries => .refl entries

def invalid {α : Type} (message : String) : Exec α := .fail (.invalidOperation message)

def Ctx.requireSpace (ctx : Ctx) : Exec String :=
  match ctx.space with
  | some space => pure space
  | none => invalid "No space selected"

def effectiveSpace (ctx : Ctx) (space : String) : Exec String :=
  if space = "" then ctx.requireSpace else pure space

def Ctx.memoryCap (ctx : Ctx) : Nat := min (ctx.maxMemoryMb * 1048576) 18446744073709551615

end ByoriDB.Executor
