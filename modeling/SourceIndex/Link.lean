import SourceIndex.Table
import SourceIndex.Text.Position

/-! The links from definitions to where they are referred to. A reference belongs to the innermost
definition around it: of the definitions of its file that contain it, taken by id, each one that
lies strictly inside the last choice becomes the choice. -/

namespace SourceIndex

structure Location where
  file : String
  range : Range
  deriving DecidableEq

def narrow (r : Location) (choice : Option (Nat × Range)) (d : Nat × Location) :
    Option (Nat × Range) :=
  if d.2.file = r.file && d.2.range.contains r.range then
    match choice with
    | none => some (d.1, d.2.range)
    | some (id, current) =>
      if current ≠ d.2.range && current.contains d.2.range then some (d.1, d.2.range)
      else some (id, current)
  else choice

/-- The innermost definition around a reference, for definitions sorted by id. Of definitions with
one and the same range the lowest id is taken. -/
def innermost? (sorted : List (Nat × Location)) (r : Location) : Option Nat :=
  (sorted.foldl (narrow r) none).map (·.1)

/-- The definitions that refer to one definition, itself left out, each once and in the order of
the references. -/
def referrers (sorted : List (Nat × Location)) (id : Nat) (references : List Location) :
    List Nat :=
  ((references.filterMap (innermost? sorted)).filter (· ≠ id)).eraseDups

def link (definitions : Table Nat Location) (references : Table Nat (List Location)) :
    Table Nat (List Nat) :=
  let sorted := sortBy (fun a b => a.1 ≤ b.1) definitions.entries
  ⟨references.entries.filterMap fun (id, raw) =>
    match referrers sorted id raw with
    | [] => none
    | ids => some (id, ids)⟩

end SourceIndex
