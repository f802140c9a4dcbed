import Mathlib.Data.List.Perm.Basic
import SourceIndex.Tour

/-! The children that a tour goes on to. The parts of a payload list the children of a node, and the
steps inside the node go on to them, independently of each other. They agree: no child is lost and
none is visited twice. Some parts are passed over for what they mean in a node of some kind, and
two kinds have their last child visited first. -/

namespace SourceIndex

namespace Step

def target? : Step → Option Nat
  | visit r => r
  | _ => none

def targets (ss : List Step) : List Nat := ss.filterMap target?

@[simp] theorem targets_nil : targets [] = [] := rfl

@[simp] theorem targets_operator (token : String) (ss : List Step) :
    targets (.operator token :: ss) = targets ss := rfl

@[simp] theorem targets_operand (token : String) (ss : List Step) :
    targets (.operand token :: ss) = targets ss := rfl

@[simp] theorem targets_visit (r : NodeRef) (ss : List Step) :
    targets (.visit r :: ss) = r.toList ++ targets ss := by
  cases r <;> rfl

@[simp] theorem targets_append (ss ts : List Step) :
    targets (ss ++ ts) = targets ss ++ targets ts := List.filterMap_append

@[simp] theorem targets_visits (rs : List NodeRef) : targets (visits rs) = rs.filterMap id := by
  induction rs with
  | nil => rfl
  | cons r rs ih =>
    have hcons : visits (r :: rs) = .visit r :: visits rs := rfl
    rw [hcons, targets_visit, ih]
    cases r <;> rfl

@[simp] theorem targets_listed (rs : Option (List NodeRef)) :
    targets (listed rs) = (rs.getD []).filterMap id := targets_visits _

@[simp] theorem targets_joined (token : String) (rs : List NodeRef) :
    targets (joined token rs) = rs.filterMap id := by
  induction rs with
  | nil => rfl
  | cons r rs ih =>
    cases rs with
    | nil => cases r <;> rfl
    | cons r' rs =>
      have hcons : joined token (r :: r' :: rs) =
          .visit r :: .operator token :: joined token (r' :: rs) := rfl
      rw [hcons, targets_visit, targets_operator, ih]
      cases r <;> rfl

@[simp] theorem targets_separated (rs : List NodeRef) :
    targets (separated rs) = rs.filterMap id := targets_joined "," rs

@[simp] theorem targets_parens (rs : List NodeRef) : targets (parens rs) = rs.filterMap id :=
  targets_separated rs

@[simp] theorem targets_map_parens (rs : Option (List NodeRef)) :
    targets ((rs.map parens).getD []) = (rs.getD []).filterMap id := by
  cases rs with
  | none => rfl
  | some rs => exact targets_parens rs

@[simp] theorem targets_angle (rs : Option (List NodeRef)) :
    targets (angle rs) = (rs.getD []).filterMap id := by
  cases rs with
  | none => rfl
  | some rs =>
    cases rs with
    | nil => rfl
    | cons r rs => exact targets_separated (r :: rs)

@[simp] theorem targets_introduced (token : String) (r : NodeRef) :
    targets (introduced token r) = r.toList := by
  cases r <;> rfl

@[simp] theorem targets_typed (r : NodeRef) : targets (typed r) = r.toList :=
  targets_introduced ":" r

@[simp] theorem targets_initializer (r : NodeRef) : targets (initializer r) = r.toList :=
  targets_introduced "=" r

@[simp] theorem targets_followed (token : String) (r : NodeRef) :
    targets (if r.isSome then [.visit r, .operator token] else []) = r.toList := by
  cases r <;> rfl

@[simp] theorem targets_visit_or (token : String) (r : NodeRef) (ss : List Step) :
    targets ((if r.isSome then .visit r else .operator token) :: ss) = r.toList ++ targets ss := by
  cases r <;> rfl

@[simp] theorem targets_flag (present : Bool) (token : String) :
    targets (flag present token) = [] := by
  cases present <;> rfl

@[simp] theorem targets_tokenOf (k : Kind) : targets (tokenOf k) = [] := by
  cases h : k.tokenText? <;> simp [tokenOf, h]

end Step

open Step

@[simp] theorem Node.targets_moduleKeyword (n : Node) : targets n.moduleKeyword = [] := by
  unfold moduleKeyword
  split_ifs <;> rfl

theorem NodeRef.toList_reverse (r : NodeRef) : r.toList.reverse = r.toList := by
  cases r <;> rfl

/-- The parts that are passed over in a node of this kind. -/
def Payload.passedOver (kind : Kind) : Payload → List String
  | .declaration (.variableList ..) =>
    if kind = .variableDeclarationList then ["modifiers"] else []
  | .declaration (.function ..) => if kind = .arrowFunction then ["name"] else []
  | .statement (.conditional ..) => if kind = .withStatement then ["else_statement"] else []
  | .statement (.loop ..) =>
    if kind = .whileStatement || kind = .doStatement then ["initializer", "incrementor"] else []
  | .statement (.clause ..) => if kind = .defaultClause then ["expression"] else []
  | .expression (.wrapped ..) => if kind = .jsxSpreadAttribute then ["expression"] else []
  | .moduleItem (.specifier ..) =>
    if kind = .namespaceImport || kind = .namespaceExport || kind = .namespaceExportDeclaration then
      ["property_name"]
    else []
  | _ => []

/-- The type of an assertion stands in front of the expression, and the body of a `do` loop in front
of the condition; the parts are listed the other way round. -/
def Payload.isTurned (kind : Kind) : Payload → Bool
  | .expression (.assertion ..) => kind = .typeAssertionExpression
  | .statement (.loop ..) => kind = .doStatement
  | _ => false

namespace Layout

/-- The children in some of the parts. -/
def childrenIn (l : Layout) (parts : String → Bool) : List Nat :=
  (l.fields.filter fun field => parts field.1).flatMap (·.2.children)

def walked (l : Layout) (passedOver : List String) (isTurned : Bool) : List Nat :=
  let shown := l.childrenIn fun part => !passedOver.contains part
  if isTurned then shown.reverse else shown

/-- The steps inside a node for which there is no rule. -/
def plainSteps (l : Layout) : List Step := l.children.map fun i => .visit (some i)

theorem targets_plainSteps (l : Layout) : targets l.plainSteps = l.children := by
  simp [targets, plainSteps, target?, List.filterMap_map, Function.comp_def]

theorem childrenIn_perm (l : Layout) (parts : String → Bool) :
    (l.childrenIn (fun part => !parts part) ++ l.childrenIn parts).Perm l.children := by
  have hsplit := List.filter_append_perm (fun field : String × Field => parts field.1) l.fields
  have hall := hsplit.flatMap_right (·.2.children)
  rw [List.flatMap_append] at hall
  exact List.perm_append_comm.trans hall

end Layout

section Shapes

attribute [local simp] Layout.walked Layout.childrenIn Layout.children Layout.targets_plainSteps
  Field.children Payload.passedOver Payload.isTurned NodeRef.toList_reverse

theorem Declaration.targets_steps (n : Node) (inMapped : Bool) (d : Declaration) :
    targets ((d.steps? n inMapped).getD d.layout.plainSteps) =
      d.layout.walked (Payload.passedOver n.kind (.declaration d))
        (Payload.isTurned n.kind (.declaration d)) := by
  cases d <;> dsimp only [steps?] <;> split <;> simp_all [layout]

theorem Statement.targets_steps (kind : Kind) (s : Statement) :
    targets ((s.steps? kind).getD s.layout.plainSteps) =
      s.layout.walked (Payload.passedOver kind (.statement s))
        (Payload.isTurned kind (.statement s)) := by
  cases s <;> dsimp only [steps?] <;> split <;> simp_all [layout]

theorem Expression.targets_steps (kind : Kind) (e : Expression) :
    targets ((e.steps? kind).getD e.layout.plainSteps) =
      e.layout.walked (Payload.passedOver kind (.expression e))
        (Payload.isTurned kind (.expression e)) := by
  cases e <;> dsimp only [steps?] <;> split <;> simp_all [layout]

theorem TypeNode.targets_steps (kind : Kind) (t : TypeNode) :
    targets ((t.steps? kind).getD t.layout.plainSteps) =
      t.layout.walked (Payload.passedOver kind (.typeNode t))
        (Payload.isTurned kind (.typeNode t)) := by
  cases t <;> dsimp only [steps?] <;> split <;> simp_all [layout]

theorem ModuleItem.targets_steps (kind : Kind) (m : ModuleItem) :
    targets ((m.steps? kind).getD m.layout.plainSteps) =
      m.layout.walked (Payload.passedOver kind (.moduleItem m))
        (Payload.isTurned kind (.moduleItem m)) := by
  cases m <;> dsimp only [steps?] <;> split <;> simp_all [layout]

theorem Jsx.targets_steps (kind : Kind) (j : Jsx) :
    targets ((j.steps? kind).getD j.layout.plainSteps) =
      j.layout.walked (Payload.passedOver kind (.jsx j)) (Payload.isTurned kind (.jsx j)) := by
  cases j <;> dsimp only [steps?] <;> split <;> simp_all [layout]

end Shapes

namespace Payload

def childrenIn (p : Payload) (parts : String → Bool) : List Nat :=
  (p.layout?.map fun l => l.childrenIn parts).getD []

def walked (kind : Kind) (p : Payload) : List Nat :=
  (p.layout?.map fun l => l.walked (p.passedOver kind) (p.isTurned kind)).getD []

theorem walked_eq (kind : Kind) (p : Payload) :
    p.walked kind =
      let shown := p.childrenIn fun part => !(p.passedOver kind).contains part
      if p.isTurned kind then shown.reverse else shown := by
  cases h : p.layout? with
  | none => simp [walked, childrenIn, h]
  | some l => simp [walked, childrenIn, Layout.walked, h]

theorem childrenIn_perm (p : Payload) (parts : String → Bool) :
    (p.childrenIn (fun part => !parts part) ++ p.childrenIn parts).Perm p.children := by
  cases h : p.layout? with
  | none => simp [childrenIn, children, h]
  | some l => simpa [childrenIn, children, h] using l.childrenIn_perm parts

end Payload

namespace Node

/-- Whether a part is passed over. In a node of a kind that is one token all of them are. -/
def passes (n : Node) (part : String) : Bool :=
  n.kind.soleToken?.isSome || (n.payload.passedOver n.kind).contains part

theorem targets_payloadSteps (n : Node) (inMapped : Bool) :
    targets ((n.payloadSteps? inMapped).getD (n.payload.children.map fun i => .visit (some i))) =
      n.payload.walked n.kind := by
  unfold payloadSteps?
  cases hp : n.payload with
  | bare => cases n.kind.tokenText? <;> rfl
  | identifier text =>
    dsimp only [identifierSteps?]
    split
    · split_ifs <;> rfl
    · rfl
    · rfl
  | literal text =>
    by_cases hblank : text.toList.all isBlank = true
    all_goals
      simp only [literalSteps?, hblank]
      split <;> rfl
  | sourceFile statements fileName script isDeclarationFile =>
    have hchildren : Payload.walked n.kind
        (.sourceFile statements fileName script isDeclarationFile) = statements.filterMap id := by
      simp [Payload.walked, Payload.layout?, Layout.walked, Layout.childrenIn, Payload.passedOver,
        Payload.isTurned, Field.children]
    by_cases hkind : n.kind = .sourceFile
    · simp only [hkind, if_true, Option.getD_some, targets_visits, ← hchildren]
    · have hplain := Layout.targets_plainSteps
        ⟨"SourceFile", [("statements", .list statements), ("file_name", .text fileName),
          ("script_kind", .script script), ("is_declaration_file", .flag isDeclarationFile)]⟩
      rw [hchildren]
      simpa [hkind, Payload.children, Payload.layout?, Layout.plainSteps, Layout.children,
        Field.children] using hplain
  | declaration d => exact d.targets_steps n inMapped
  | statement s => exact s.targets_steps n.kind
  | expression e => exact e.targets_steps n.kind
  | typeNode t => exact t.targets_steps n.kind
  | moduleItem m => exact m.targets_steps n.kind
  | jsx j => exact j.targets_steps n.kind

theorem targets_steps (n : Node) (inMapped : Bool) :
    targets (n.steps inMapped) =
      let shown := n.payload.childrenIn fun part => !n.passes part
      if n.payload.isTurned n.kind then shown.reverse else shown := by
  unfold steps passes
  cases hsole : n.kind.soleToken? with
  | some token =>
    have hnone : (n.payload.childrenIn fun _ => false) = [] := by
      cases h : n.payload.layout? <;> simp [Payload.childrenIn, Layout.childrenIn, h]
    simp [hnone]
  | none =>
    rw [targets_payloadSteps, Payload.walked_eq]
    simp

end Node

namespace Tour

/-- A visit that succeeds, whatever the node, and takes down which node it was. -/
def note (r : NodeRef) : Tour := { events := r.toList.map fun i => .enter i default }

/-- The nodes that are visited by these steps, in order, when every visit succeeds. -/
def visitedBy (ss : List Step) : List Nat :=
  (steps note ss).events.filterMap fun
    | .enter index _ => some index
    | _ => none

theorem steps_note_isCut (ss : List Step) : (steps note ss).isCut = false := by
  induction ss with
  | nil => rfl
  | cons s ss ih => cases s <;> exact ih

theorem visitedBy_eq (ss : List Step) : visitedBy ss = targets ss := by
  induction ss with
  | nil => rfl
  | cons s ss ih =>
    cases s with
    | operator token => exact ih
    | operand token => exact ih
    | visit r => cases r <;> simpa [visitedBy, steps, step, append, note] using ih

end Tour

/-- No child is lost and none is visited twice. The nodes visited from a node are the children in
the parts that are not passed over, in the order of the parts or, for two kinds, the other way
round; together with the children that are passed over they are all children. -/
theorem Node.visits_each_child_once (n : Node) (inMapped : Bool) :
    (Tour.steps Tour.note (n.steps inMapped)).isCut = false ∧
      Tour.visitedBy (n.steps inMapped) =
        (if n.payload.isTurned n.kind then
          (n.payload.childrenIn fun part => !n.passes part).reverse
        else n.payload.childrenIn fun part => !n.passes part) ∧
      (Tour.visitedBy (n.steps inMapped) ++ n.payload.childrenIn n.passes).Perm
        n.payload.children := by
  have hvisited : Tour.visitedBy (n.steps inMapped) = _ :=
    (Tour.visitedBy_eq _).trans (n.targets_steps inMapped)
  refine ⟨Tour.steps_note_isCut _, hvisited, ?_⟩
  have hperm : (Tour.visitedBy (n.steps inMapped)).Perm
      (n.payload.childrenIn fun part => !n.passes part) := by
    rw [hvisited]
    dsimp only
    split
    · exact List.reverse_perm _
    · exact List.Perm.refl _
  exact (hperm.append_right _).trans (n.payload.childrenIn_perm n.passes)

end SourceIndex
