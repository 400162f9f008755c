import Lineage.Tree.Node

/-!
Children of a node, and walks over a tree in which every node comes in front of its children.
-/

namespace Lineage

/-- The nodes in a parameter: its annotation and its default. -/
def Param.nodes (p : Param Node) : List Node :=
  p.hint.toList ++ p.default.toList

/-- The nodes in the context of a `with` statement. -/
def WithItem.nodes (i : WithItem Node) : List Node :=
  i.context :: i.target.toList

/-- The nodes in an entry of a dictionary. -/
def Entry.nodes (e : Entry Node) : List Node :=
  e.key.toList ++ [e.value]

/-- The nodes in a `for` of a comprehension. -/
def Generator.nodes (g : Generator Node) : List Node :=
  g.target :: g.iter :: g.conditions

/-- The nodes in an `elif` clause. -/
def Elif.nodes (e : Elif Node) : List Node :=
  e.test :: e.body

/-- The nodes in an `except` clause. -/
def Handler.nodes (h : Handler Node) : List Node :=
  h.type.toList ++ h.body

/-- The statements of an optional clause. -/
def Clause.statements : Option (Clause Node) → List Node
  | none => []
  | some clause => clause.body

namespace Node

/-- The children of a node in order; what is absent is left out. -/
def children : Node → List Node
  | .module _ code => code
  | .decorator _ e => [e]
  | .decorated _ decorators definition => decorators ++ [definition]
  | .function _ _ _ params returns code _ => params.flatMap Param.nodes ++ returns.toList ++ code
  | .classDef _ _ _ bases keywords code => bases ++ keywords.map Keyword.value ++ code
  | .assign _ targets value _ hint _ => targets ++ hint.toList ++ value.toList
  | .assertion _ condition message => condition :: message.toList
  | .returning _ value => value.toList
  | .yielding _ value _ => value.toList
  | .raising _ exception cause => exception.toList ++ cause.toList
  | .delete _ targets => targets
  | .expression _ value => [value]
  | .branch _ _ test code elifs orelse =>
    test :: code ++ elifs.flatMap Elif.nodes ++ Clause.statements orelse
  | .whileLoop _ _ test code orelse => test :: code ++ Clause.statements orelse
  | .forLoop _ _ target iter code orelse _ => target :: iter :: code ++ Clause.statements orelse
  | .attempt _ _ code handlers orelse final =>
    code ++ handlers.flatMap Handler.nodes ++ Clause.statements orelse ++ Clause.statements final
  | .context _ _ items code _ => items.flatMap WithItem.nodes ++ code
  | .call _ func args keywords => func :: args ++ keywords.map Keyword.value
  | .conditional _ test body orelse => [test, body, orelse]
  | .lambda _ params body => params.flatMap Param.nodes ++ [body]
  | .unary _ _ operand => [operand]
  | .binary _ _ left right => [left, right]
  | .starred _ value => [value]
  | .tuple _ items => items
  | .list _ items => items
  | .set _ items => items
  | .dict _ entries => entries.flatMap Entry.nodes
  | .member _ value _ => [value]
  | .subscript _ value index => [value, index]
  | .slice _ lower upper step => lower.toList ++ upper.toList ++ step.toList
  | .comprehension _ _ element value generators =>
    element :: value.toList ++ generators.flatMap Generator.nodes
  | .formatted _ values => values
  | .imports .. | .importsFrom .. | .break _ | .continue _ | .pass _ | .global .. | .nonlocal ..
  | .verbatim .. | .name .. | .literal .. => []

variable {β : Type} (f : Node → List β → β)

mutual

/-- Combines a tree from its leaves up: `f` is given a node and what its children came to, in
order. -/
def fold : Node → β
  | n@(.module _ code) => f n (foldList code)
  | n@(.decorator _ e) => f n [fold e]
  | n@(.decorated _ decorators definition) => f n (foldList decorators ++ [fold definition])
  | n@(.function _ _ _ params returns code _) =>
    f n (foldParams params ++ foldOption returns ++ foldList code)
  | n@(.classDef _ _ _ bases keywords code) =>
    f n (foldList bases ++ foldKeywords keywords ++ foldList code)
  | n@(.assign _ targets value _ hint _) =>
    f n (foldList targets ++ foldOption hint ++ foldOption value)
  | n@(.assertion _ condition message) => f n (fold condition :: foldOption message)
  | n@(.returning _ value) => f n (foldOption value)
  | n@(.yielding _ value _) => f n (foldOption value)
  | n@(.raising _ exception cause) => f n (foldOption exception ++ foldOption cause)
  | n@(.delete _ targets) => f n (foldList targets)
  | n@(.expression _ value) => f n [fold value]
  | n@(.branch _ _ test code elifs orelse) =>
    f n (fold test :: foldList code ++ foldElifs elifs ++ foldClause orelse)
  | n@(.whileLoop _ _ test code orelse) => f n (fold test :: foldList code ++ foldClause orelse)
  | n@(.forLoop _ _ target iter code orelse _) =>
    f n (fold target :: fold iter :: foldList code ++ foldClause orelse)
  | n@(.attempt _ _ code handlers orelse final) =>
    f n (foldList code ++ foldHandlers handlers ++ foldClause orelse ++ foldClause final)
  | n@(.context _ _ items code _) => f n (foldItems items ++ foldList code)
  | n@(.call _ func args keywords) => f n (fold func :: foldList args ++ foldKeywords keywords)
  | n@(.conditional _ test body orelse) => f n [fold test, fold body, fold orelse]
  | n@(.lambda _ params body) => f n (foldParams params ++ [fold body])
  | n@(.unary _ _ operand) => f n [fold operand]
  | n@(.binary _ _ left right) => f n [fold left, fold right]
  | n@(.starred _ value) => f n [fold value]
  | n@(.tuple _ items) => f n (foldList items)
  | n@(.list _ items) => f n (foldList items)
  | n@(.set _ items) => f n (foldList items)
  | n@(.dict _ entries) => f n (foldEntries entries)
  | n@(.member _ value _) => f n [fold value]
  | n@(.subscript _ value index) => f n [fold value, fold index]
  | n@(.slice _ lower upper step) => f n (foldOption lower ++ foldOption upper ++ foldOption step)
  | n@(.comprehension _ _ element value generators) =>
    f n (fold element :: foldOption value ++ foldGenerators generators)
  | n@(.formatted _ values) => f n (foldList values)
  | n@(.imports ..) | n@(.importsFrom ..) | n@(.break _) | n@(.continue _) | n@(.pass _)
  | n@(.global ..) | n@(.nonlocal ..) | n@(.verbatim ..) | n@(.name ..) | n@(.literal ..) => f n []

/-- What each of some nodes comes to. -/
def foldList : List Node → List β
  | [] => []
  | n :: rest => fold n :: foldList rest

/-- What an optional node comes to. -/
def foldOption : Option Node → List β
  | none => []
  | some n => [fold n]

/-- What the nodes in parameters come to. -/
def foldParams : List (Param Node) → List β
  | [] => []
  | ⟨_, default, hint, _⟩ :: rest => foldOption hint ++ foldOption default ++ foldParams rest

/-- What the values of keywords come to. -/
def foldKeywords : List (Keyword Node) → List β
  | [] => []
  | ⟨_, value⟩ :: rest => fold value :: foldKeywords rest

/-- What the nodes in contexts come to. -/
def foldItems : List (WithItem Node) → List β
  | [] => []
  | ⟨ctx, target⟩ :: rest => fold ctx :: foldOption target ++ foldItems rest

/-- What the nodes in entries come to. -/
def foldEntries : List (Entry Node) → List β
  | [] => []
  | ⟨key, value⟩ :: rest => foldOption key ++ fold value :: foldEntries rest

/-- What the nodes in generators come to. -/
def foldGenerators : List (Generator Node) → List β
  | [] => []
  | ⟨target, iter, conditions, _⟩ :: rest =>
    fold target :: fold iter :: foldList conditions ++ foldGenerators rest

/-- What the nodes in `elif` clauses come to. -/
def foldElifs : List (Elif Node) → List β
  | [] => []
  | ⟨_, test, body⟩ :: rest => fold test :: foldList body ++ foldElifs rest

/-- What the nodes in `except` clauses come to. -/
def foldHandlers : List (Handler Node) → List β
  | [] => []
  | ⟨_, body, type, _⟩ :: rest => foldOption type ++ foldList body ++ foldHandlers rest

/-- What the statements of an optional clause come to. -/
def foldClause : Option (Clause Node) → List β
  | none => []
  | some ⟨_, body⟩ => foldList body

end

theorem foldList_eq_map (ns : List Node) : foldList f ns = ns.map (fold f) := by
  induction ns with
  | nil => simp [foldList]
  | cons n rest ih => simp [foldList, ih]

theorem foldOption_eq_map (o : Option Node) : foldOption f o = o.toList.map (fold f) := by
  cases o <;> simp [foldOption]

theorem foldParams_eq_map (ps : List (Param Node)) :
    foldParams f ps = (ps.flatMap Param.nodes).map (fold f) := by
  induction ps with
  | nil => simp [foldParams]
  | cons p rest ih => simp [foldParams, foldOption_eq_map, Param.nodes, ih]

theorem foldKeywords_eq_map (ks : List (Keyword Node)) :
    foldKeywords f ks = (ks.map Keyword.value).map (fold f) := by
  induction ks with
  | nil => simp [foldKeywords]
  | cons k rest ih => simp [foldKeywords, ih]

theorem foldItems_eq_map (is : List (WithItem Node)) :
    foldItems f is = (is.flatMap WithItem.nodes).map (fold f) := by
  induction is with
  | nil => simp [foldItems]
  | cons i rest ih => simp [foldItems, foldOption_eq_map, WithItem.nodes, ih]

theorem foldEntries_eq_map (es : List (Entry Node)) :
    foldEntries f es = (es.flatMap Entry.nodes).map (fold f) := by
  induction es with
  | nil => simp [foldEntries]
  | cons e rest ih => simp [foldEntries, foldOption_eq_map, Entry.nodes, ih]

theorem foldGenerators_eq_map (gs : List (Generator Node)) :
    foldGenerators f gs = (gs.flatMap Generator.nodes).map (fold f) := by
  induction gs with
  | nil => simp [foldGenerators]
  | cons g rest ih => simp [foldGenerators, foldList_eq_map, Generator.nodes, ih]

theorem foldElifs_eq_map (es : List (Elif Node)) :
    foldElifs f es = (es.flatMap Elif.nodes).map (fold f) := by
  induction es with
  | nil => simp [foldElifs]
  | cons e rest ih => simp [foldElifs, foldList_eq_map, Elif.nodes, ih]

theorem foldHandlers_eq_map (hs : List (Handler Node)) :
    foldHandlers f hs = (hs.flatMap Handler.nodes).map (fold f) := by
  induction hs with
  | nil => simp [foldHandlers]
  | cons h rest ih => simp [foldHandlers, foldOption_eq_map, foldList_eq_map, Handler.nodes, ih]

theorem foldClause_eq_map (c : Option (Clause Node)) :
    foldClause f c = (Clause.statements c).map (fold f) := by
  cases c <;> simp [foldClause, Clause.statements, foldList_eq_map]

/-- A fold goes by the children of a node. -/
theorem fold_eq (n : Node) : fold f n = f n (n.children.map (fold f)) := by
  cases n <;>
    simp [fold, children, foldList_eq_map, foldOption_eq_map, foldParams_eq_map,
      foldKeywords_eq_map, foldItems_eq_map, foldEntries_eq_map, foldGenerators_eq_map,
      foldElifs_eq_map, foldHandlers_eq_map, foldClause_eq_map]

/-- All nodes of a tree, each in front of its children. The children of a node that `prune` accepts
are left out. -/
def walk (prune : Node → Bool) (n : Node) : List Node :=
  n.fold fun n below => n :: if prune n then [] else below.flatten

/-- All nodes of a tree. -/
def nodes (n : Node) : List Node :=
  n.walk fun _ => false

/-- The walk of a node goes on with the walks of its children unless it is pruned. -/
theorem walk_eq (prune : Node → Bool) (n : Node) :
    n.walk prune = n :: if prune n then [] else n.children.flatMap (walk prune) := by
  rw [walk, fold_eq, List.flatMap]
  rfl

end Node

end Lineage
