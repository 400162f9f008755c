import Lineage.Flow.Step

/-!
What a statement without blocks evaluates and binds, read off the statement alone: which expressions
are evaluated, which names are bound whenever it runs, and which names are bound in parts of a
target that are evaluated but not looked at by its analysis.
-/

namespace Lineage

namespace Node

/-- The names of the assignment expressions that are evaluated with a node. -/
def walruses (n : Node) : List String :=
  n.bindings.map Occurrence.id

/-- The names that assigning to a target binds. -/
def targetIds (n : Node) : List String :=
  n.targetNames.map Occurrence.id

mutual

/-- The expressions that are evaluated in assigning to a target. -/
def targetParts : Node → List Node
  | .name .. => []
  | .tuple _ items => targetPartsList items
  | .list _ items => targetPartsList items
  | .starred _ value => targetParts value
  | .member _ value _ => [value]
  | .subscript _ value index => [value, index]
  | other => [other]

/-- The expressions that are evaluated in assigning to several targets. -/
def targetPartsList : List Node → List Node
  | [] => []
  | n :: rest => targetParts n ++ targetPartsList rest

end

/-- The expressions of decorators. -/
def decoratorParts (decorators : List Node) : List Node :=
  decorators.filterMap fun
    | .decorator _ e => some e
    | _ => none

/-- The expressions that a statement without blocks evaluates and that its analysis looks at. -/
def evaluatedParts : Node → List Node
  | .assign _ targets value op hint _ =>
    value.toList ++ hint.toList ++ (if op.isSome then targets else []) ++
      if value.isNone then [] else targetPartsList targets
  | .assertion _ condition message => condition :: message.toList
  | .returning _ value => value.toList
  | .raising _ exception cause => exception.toList ++ cause.toList
  | .expression _ value => [value]
  | .delete _ targets =>
    targets.flatMap fun t => if t.targetNames.isEmpty then targetParts t else []
  | .function _ _ _ params returns _ _ => params.flatMap Flow.paramReads ++ returns.toList
  | .classDef _ _ _ bases keywords _ => bases ++ keywords.map Keyword.value
  | .decorated _ decorators (.function _ _ _ params returns _ _) =>
    decoratorParts decorators ++ (params.flatMap Flow.paramReads ++ returns.toList)
  | .decorated _ decorators (.classDef _ _ _ bases keywords _) =>
    decoratorParts decorators ++ (bases ++ keywords.map Keyword.value)
  | _ => []

/-- The names that a statement without blocks binds whenever it runs, assignment expressions
apart. -/
def boundNames : Node → List String
  | .imports _ names => names.map Alias.boundName
  | .importsFrom _ _ _ names => if Alias.isStar names then [] else names.map Alias.boundName
  | .assign _ targets value _ _ _ => if value.isNone then [] else targets.flatMap targetIds
  | .delete _ targets => targets.flatMap targetIds
  | .function _ own .. => [own]
  | .classDef _ own .. => [own]
  | .decorated _ _ (.function _ own ..) => [own]
  | .decorated _ _ (.classDef _ own ..) => [own]
  | _ => []

/-- The names of assignment expressions in parts of a target that are evaluated but not looked at:
in the target of a bare annotation, and beside the names of a deletion. -/
def strayNames : Node → List String
  | .assign _ targets none none _ _ => targets.flatMap walruses
  | .delete _ targets => targets.flatMap fun t => if t.targetNames.isEmpty then [] else t.walruses
  | _ => []

/-- The parts that entering contexts evaluates. -/
def contextParts (items : List (WithItem Node)) : List Node :=
  items.flatMap fun item => item.context :: targetPartsList item.target.toList

/-- The names that entering contexts binds, assignment expressions apart. -/
def contextIds (items : List (WithItem Node)) : List String :=
  items.flatMap fun item => (targetNamesList item.target.toList).map Occurrence.id

/-- Whether a statement brings in all names of a module. -/
def isStarImport : Node → Bool
  | .importsFrom _ _ _ names => Alias.isStar names
  | _ => false

/-- Whether evaluating a node, other than the inside of a lambda, runs code that is not known. -/
def runsUnknown (settings : Flow.Settings) (n : Node) : Bool :=
  n.evaluated.any settings.runsUnknown

/-- Whether a statement without blocks runs code that is not known. -/
def isOpaque (settings : Flow.Settings) (n : Node) : Bool :=
  n.kind = .verbatim || n.evaluatedParts.any (runsUnknown settings)

/-- Whether a statement may bind any name at all: it brings in all names of a module, or it neither
has blocks nor defines anything and runs code that is not known. -/
def bindsAnyName (settings : Flow.Settings) (n : Node) : Bool :=
  n.isStarImport || !n.kind.isCompound && !n.kind.isDefinition && n.isOpaque settings

theorem targetPartsList_eq_flatMap (ns : List Node) :
    targetPartsList ns = ns.flatMap targetParts := by
  induction ns with
  | nil => rfl
  | cons n rest ih => rw [targetPartsList, ih, List.flatMap_cons]

theorem targetNamesList_eq_flatMap (ns : List Node) :
    targetNamesList ns = ns.flatMap targetNames := by
  induction ns with
  | nil => rfl
  | cons n rest ih => rw [targetNamesList, ih, List.flatMap_cons]

end Node

end Lineage
