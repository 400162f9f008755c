import Std.Data.ExtTreeMap
import Std.Data.ExtTreeSet

/-!
What is known of calls: which callees leave their arguments alone, and which run code that may read
or write any name.
-/

namespace Lineage.Flow

/-- A set of names. -/
abbrev NameSet := Std.ExtTreeSet String

/-- Whether a callee is pure, by dotted path or, with a dot in front, by attribute. -/
abbrev EffectTable := Std.ExtTreeMap String Bool

/-- Functions that neither change their arguments nor touch the names around the call. -/
def pureFunctions : List String :=
  ["abs", "all", "any", "ascii", "bin", "bool", "bytearray", "bytes", "callable", "chr",
    "complex", "dict", "dir", "divmod", "enumerate", "filter", "float", "format", "frozenset",
    "getattr", "hasattr", "hash", "hex", "id", "int", "isinstance", "issubclass", "iter", "len",
    "list", "map", "max", "min", "oct", "ord", "pow", "print", "range", "repr", "reversed", "round",
    "set", "slice", "sorted", "str", "sum", "tuple", "type", "zip", "math.ceil", "math.floor",
    "math.sqrt", "math.log", "math.exp"]

/-- Methods that are pure whatever object they are called on. -/
def pureMethods : List String :=
  [".copy", ".count", ".endswith", ".format", ".get", ".index", ".items", ".join", ".keys",
    ".lower", ".lstrip", ".replace", ".rstrip", ".split", ".startswith", ".strip", ".upper",
    ".values"]

/-- Adds entries to a table; a later entry for a callee replaces an earlier one. -/
def EffectTable.with (table : EffectTable) (entries : List (String × Bool)) : EffectTable :=
  entries.foldl (fun t (callee, pure) => t.insert callee pure) table

/-- The table of entries. -/
def EffectTable.ofEntries (entries : List (String × Bool)) : EffectTable :=
  EffectTable.with ∅ entries

/-- What calls are known to do. -/
structure Settings where
  effects : EffectTable
  dynamicNames : NameSet

namespace Settings

/-- What is known when nothing else is said. -/
def standard : Settings where
  effects := EffectTable.ofEntries ((pureFunctions ++ pureMethods).map fun callee => (callee, true))
  dynamicNames := Std.ExtTreeSet.ofList ["eval", "exec", "globals", "locals", "vars"]

/-- The settings with further entries in their table. -/
def withEffects (s : Settings) (entries : List (String × Bool)) : Settings :=
  { s with effects := s.effects.with entries }

end Settings

/-- Whether a callee is pure: it is looked up by its whole path, and if that is unknown by its last
attribute. What is not in the table is not pure. -/
def EffectTable.isPure (table : EffectTable) (path attr : Option String) : Bool :=
  match path.bind fun p => table[p]? with
  | some pure => pure
  | none =>
    match attr with
    | some a => table.getD ("." ++ a) false
    | none => false

end Lineage.Flow
