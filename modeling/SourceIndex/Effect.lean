import SourceIndex.Collaborators
import SourceIndex.Entry

/-! What a run does to the world around it. A run is worked out as a list of effects, which are
then carried out in order. -/

namespace SourceIndex

inductive Effect where
  | write (entry : Entry)
  | ask (query : Query)
  | report (error : OracleError)
  | flush

abbrev Journal := Array Effect

/-- Takes down a question, and a report if the answer is a defect. An answer that is an error
counts as nothing. -/
def Journal.consult {α : Type} (j : Journal) (query : Query) (answer : Except OracleError α)
    (nothing : α) : α × Journal :=
  let asked := j.push (.ask query)
  match answer with
  | .ok a => (a, asked)
  | .error e => (nothing, if e.isDefect then asked.push (.report e) else asked)

end SourceIndex
