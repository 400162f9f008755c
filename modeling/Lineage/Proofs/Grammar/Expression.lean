import Lineage.Proofs.Grammar.Reading
import Lineage.Proofs.Grammar.Shape

/-!
The rules for expressions read shaped ones, one law for each rule. The rules for nested expressions
are assumed to; the whole grammar ties them to rules that do, one level after the other.
-/

namespace Lineage.Grammar

open List

theorem forall_mem_pair {α : Type} {P : α → Prop} {a b : α} (first : P a) (second : P b) :
    ∀ x ∈ [a, b], P x :=
  forall_mem_cons.mpr ⟨first, forall_mem_singleton.mpr second⟩

theorem forall_mem_getD {α : Type} {P : α → Prop} {found : Option (List α)}
    (all : ∀ as ∈ found.toList, ∀ a ∈ as, P a) : ∀ a ∈ found.getD [], P a := by
  cases found with
  | none => exact forall_mem_nil _
  | some as => exact all as (mem_singleton_self _)

theorem forall_mem_flatMap {α β : Type} {P : β → Prop} {f : α → List β} {as : List α}
    (all : ∀ a ∈ as, ∀ b ∈ f a, P b) : ∀ b ∈ as.flatMap f, P b := by
  intro b member
  obtain ⟨a, among, part⟩ := mem_flatMap.mp member
  exact all a among b part

theorem shaped_name (loc : Location) (id : String) : (Expr.name loc id).Shaped :=
  .mk trivial (forall_mem_nil _)

/-- The expressions of a generator. -/
def generatorParts (g : Generator Expr) : List Expr :=
  g.target :: g.iter :: g.conditions

theorem shaped_comprehension {loc : Location} {flavor : Flavor} {element : Expr}
    {value : Option Expr} {generators : List (Generator Expr)} (own : element.Shaped)
    (second : ∀ e ∈ value.toList, e.Shaped)
    (found : generators ≠ [] ∧ ∀ g ∈ generators, ∀ e ∈ generatorParts g, e.Shaped) :
    (Expr.comprehension loc flavor element value generators).Shaped :=
  .mk found.1 (forall_mem_append.mpr ⟨forall_mem_cons.mpr ⟨own, second⟩,
    forall_mem_flatMap found.2⟩)

namespace Nested

/-- The rules for nested expressions read shaped ones. -/
structure Sound (n : Nested) : Prop where
  expression : Yields n.expression Expr.Shaped
  disjunction : Yields n.disjunction Expr.Shaped
  inversion : Yields n.inversion Expr.Shaped
  bitwiseOr : Yields n.bitwiseOr Expr.Shaped
  factor : Yields n.factor Expr.Shaped
  primary : Yields n.primary Expr.Shaped
  replacement : ReadsShaped n.replacement

variable {n : Nested}

theorem yields_assignment (sound : n.Sound) : Yields n.assignment Expr.Shaped :=
  .skip fun _ => .skip fun _ => .skip fun _ => .skip fun _ => .bind sound.expression
      fun _ value => .skip fun _ =>
    .pure (.mk trivial (forall_mem_pair (shaped_name _ _) value))

theorem yields_namedExpression (sound : n.Sound) : Yields n.namedExpression Expr.Shaped :=
  .skip fun _ => .ite (yields_assignment sound) sound.expression

theorem yields_starred {value : Rule Expr} (known : Yields value Expr.Shaped) :
    Yields (starred value) Expr.Shaped :=
  .skip fun _ => .skip fun _ => .bind known fun _ own => .skip fun _ => .pure
    (.mk trivial (forall_mem_singleton.mpr own))

theorem yields_element (sound : n.Sound) : Yields n.element Expr.Shaped :=
  .skip fun _ => .ite (yields_starred sound.bitwiseOr) (yields_namedExpression sound)

theorem yields_starExpression (sound : n.Sound) : Yields n.starExpression Expr.Shaped :=
  .skip fun _ => .ite (yields_starred sound.bitwiseOr) sound.expression

theorem yields_tupled {item : Rule Expr} (known : Yields item Expr.Shaped) :
    Yields (tupled item) Expr.Shaped := by
  refine .skip fun _ => .bind known fun _ first => .bind known.andThen.many fun _ others => .skip
    fun _ => .ite (.pure first) ?_
  exact .skip fun _ => .pure (.mk trivial (forall_mem_cons.mpr ⟨first, others⟩))

section

variable (sound : n.Sound)

include sound

theorem yields_starExpressions : Yields n.starExpressions Expr.Shaped :=
  yields_tupled (yields_starExpression sound)

theorem yields_yielding : Yields n.yielding Expr.Shaped := by
  refine .skip fun _ => .skip fun _ => .skip fun _ => .ite ?_ ?_
  · exact .bind sound.expression fun _ own => .skip fun _ => .pure
      (.mk trivial (forall_mem_singleton.mpr own))
  · exact .bind (yields_starExpressions sound).maybe fun _ own => .skip fun _ => .pure
      (.mk trivial own)

theorem yields_assigned : Yields n.assigned Expr.Shaped :=
  .skip fun _ => .ite (yields_yielding sound) (yields_starExpressions sound)

theorem yields_target : Yields n.target Expr.Shaped := by
  refine .skip fun _ => .ite (.bind (yields_starred sound.primary) fun _ own => ?_)
    (.bind sound.primary fun _ own => ?_)
  all_goals exact .skip fun _ => .pure own

theorem yields_targets : Yields n.targets Expr.Shaped :=
  yields_tupled (yields_target sound)

theorem yields_generator : Yields n.generator fun g => ∀ e ∈ generatorParts g, e.Shaped := by
  refine .skip fun _ => .skip fun _ => .bind (yields_targets sound) fun _ target => .skip
    fun _ => ?_
  refine .bind sound.disjunction fun _ iter => .bind sound.disjunction.andThen.many
    fun _ conditions => .pure ?_
  exact forall_mem_cons.mpr ⟨target, forall_mem_cons.mpr ⟨iter, conditions⟩⟩

theorem yields_parenthesized : Yields n.parenthesized Expr.Shaped := by
  refine .skip fun _ => .skip fun _ => .skip fun _ => .ite ?_ (.skip fun _ => .ite ?_ ?_)
  · exact .skip fun _ => .pure (.mk trivial (forall_mem_nil _))
  · exact .bind (yields_yielding sound) fun _ own => .skip fun _ => .pure own
  · refine .bind (yields_element sound) fun _ first => .skip fun _ => .ite ?_
      (.skip fun _ => .ite ?_ ?_)
    · refine .skip fun _ => .bind (yields_generator sound).many1 fun _ found => .skip fun _ => .skip
        fun _ => .pure ?_
      exact shaped_comprehension first (forall_mem_nil _) found
    · refine .bind (yields_element sound).listed.maybe fun _ rest => .skip fun _ => .skip
        fun _ => .pure ?_
      exact .mk trivial (forall_mem_cons.mpr ⟨first, forall_mem_getD rest⟩)
    · exact .skip fun _ => .skip fun _ => .pure first

theorem yields_bracketed : Yields n.bracketed Expr.Shaped := by
  refine .skip fun _ => .skip fun _ => .skip fun _ => .ite
    (.skip fun _ => .pure (.mk trivial (forall_mem_nil _))) ?_
  refine .bind (yields_element sound) fun _ first => .skip fun _ => .ite ?_ ?_
  · refine .skip fun _ => .bind (yields_generator sound).many1 fun _ found => .skip fun _ => .skip
      fun _ => .pure ?_
    exact shaped_comprehension first (forall_mem_nil _) found
  · refine .bind (yields_element sound).andThen.many fun _ rest => .skip fun _ => .skip
      fun _ => .skip fun _ => .pure ?_
    exact .mk trivial (forall_mem_cons.mpr ⟨first, rest⟩)

end

/-- The expressions of an entry of a dictionary. -/
def entryParts (e : Entry Expr) : List Expr :=
  e.key.toList ++ [e.value]

theorem yields_entry (sound : n.Sound) : Yields n.entry fun e => ∀ p ∈ entryParts e, p.Shaped := by
  refine .skip fun _ => .ite (.bind sound.bitwiseOr fun _ value => .pure
    (forall_mem_singleton.mpr value)) ?_
  exact .bind sound.expression fun _ key => .skip fun _ => .bind sound.expression fun _ value =>
    .pure (forall_mem_pair key value)

theorem shaped_dict {loc : Location} {entries : List (Entry Expr)}
    (all : ∀ e ∈ entries, ∀ p ∈ entryParts e, p.Shaped) :
    (Expr.dict loc (entries.map Entry.key) (entries.map Entry.value)).Shaped := by
  refine .mk ((length_map _).trans (length_map _).symm)
    (forall_mem_append.mpr ⟨fun p member => ?_, ?_⟩)
  · rw [flatMap_map] at member
    obtain ⟨e, among, own⟩ := mem_flatMap.mp member
    exact all e among p (mem_append_left _ own)
  · exact forall_mem_map.mpr fun e among => all e among _
      (mem_append_right _ (mem_singleton_self _))

theorem yields_dictRest (sound : n.Sound) (start : Position) {first : Entry Expr}
    (own : ∀ p ∈ entryParts first, p.Shaped) : Yields (n.dictRest start first) Expr.Shaped := by
  refine .bind (yields_entry sound).andThen.many fun _ rest => .skip fun _ => .skip fun _ => .skip
    fun _ => .pure ?_
  exact shaped_dict (forall_mem_cons.mpr ⟨own, rest⟩)

theorem yields_setRest (sound : n.Sound) (start : Position) {first : Expr} (own : first.Shaped) :
    Yields (n.setRest start first) Expr.Shaped := by
  refine .skip fun _ => .ite ?_ ?_
  · refine .skip fun _ => .bind (yields_generator sound).many1 fun _ found => .skip fun _ => .skip
      fun _ => .pure ?_
    exact shaped_comprehension own (forall_mem_nil _) found
  · refine .bind (yields_element sound).andThen.many fun _ rest => .skip fun _ => .skip
      fun _ => .skip fun _ => .pure ?_
    exact .mk trivial (forall_mem_cons.mpr ⟨own, rest⟩)

theorem yields_braced (sound : n.Sound) : Yields n.braced Expr.Shaped := by
  refine .skip fun start => .skip fun _ => .skip fun _ => .ite ?_ (.skip fun _ => .ite ?_ ?_)
  · exact .skip fun _ => .pure (.mk rfl (forall_mem_nil _))
  · exact .bind (yields_entry sound) fun _ own => yields_dictRest sound start own
  refine .skip fun _ => .skip fun _ => .ite
    (.bind (yields_element sound) fun _ own => yields_setRest sound start own) ?_
  refine .bind sound.expression fun _ first => .skip fun _ => .ite ?_
    (yields_setRest sound start first)
  refine .bind sound.expression fun _ value => .skip fun _ => .ite ?_
    (yields_dictRest sound start (forall_mem_pair first value))
  refine .bind (yields_generator sound).many1 fun _ found => .skip fun _ => .skip fun _ => .pure ?_
  exact shaped_comprehension first (forall_mem_singleton.mpr value) found

theorem yields_numeral : Yields numeral Expr.Shaped := by
  refine .skip fun _ => .skip fun _ => ?_
  split
  · exact .fail
  · exact .skip fun _ => .pure (shaped_constant _ _)

theorem yields_strings (sound : n.Sound) : Yields n.strings Expr.Shaped := by
  refine .skip fun _ => .skip fun _ => .skip fun _ => ?_
  split
  · exact .fail
  · rename_i e found
    exact .pure (shaped_stringExpr sound.replacement e found)

theorem yields_constant (word : String) (value : Literal) :
    Yields (constant word value) Expr.Shaped :=
  .skip fun _ => .skip fun _ => .skip fun _ => .pure (shaped_constant _ _)

theorem yields_atom (sound : n.Sound) : Yields n.atom Expr.Shaped := by
  refine .skip fun _ => .orElse (.skip fun _ => .skip fun _ => .pure (shaped_name _ _)) ?_
  refine .orElse (yields_parenthesized sound)
    (.orElse (yields_bracketed sound) (.orElse (yields_braced sound) ?_))
  refine .orElse yields_numeral (.orElse (yields_strings sound) (.orElse (yields_constant _ _) ?_))
  refine .orElse (yields_constant _ _) (.orElse (yields_constant _ _) ?_)
  exact .skip fun _ => .skip fun _ => .pure (shaped_constant _ _)

/-- The expression of an argument. -/
def Argument.value : Argument → Expr
  | .positional e | .unpacked e | .unpackedMapping e => e
  | .keyword k => k.value

theorem yields_argument (sound : n.Sound) : Yields n.argument fun a => a.value.Shaped := by
  refine .skip fun _ => .ite (.bind (yields_starred sound.expression) fun _ own => .pure own) ?_
  refine .skip fun _ => .ite (.bind sound.expression fun _ own => .pure own) (.skip fun found => ?_)
  cases found with
  | none => exact .bind (yields_namedExpression sound) fun _ own => .pure own
  | some => exact .bind sound.expression fun _ own => .pure own

theorem shaped_arguments {found : List Argument} (all : ∀ a ∈ found, a.value.Shaped) :
    ∀ e ∈ positionals found ++ (byKeyword found).map Keyword.value, e.Shaped := by
  refine forall_mem_append.mpr ⟨fun e member => ?_, fun e member => ?_⟩
  · obtain ⟨a, among, same⟩ := mem_filterMap.mp member
    have own := all a among
    cases a <;> cases same <;> exact own
  · obtain ⟨k, listed, rfl⟩ := mem_map.mp member
    obtain ⟨a, among, same⟩ := mem_filterMap.mp listed
    have own := all a among
    cases a <;> cases same <;> exact own

theorem yields_arguments (sound : n.Sound) :
    Yields n.arguments fun found => ∀ a ∈ found, a.value.Shaped :=
  .skip fun _ => .ite (.pure (forall_mem_nil _))
      (.bind (yields_argument sound).listed fun _ all => .skip fun _ =>
    .skip fun _ => .pure all)

theorem yields_called (sound : n.Sound) :
    Yields n.called fun found => ∀ e ∈ found.1 ++ found.2.map Keyword.value, e.Shaped := by
  refine .skip fun _ => .skip fun _ => .skip fun _ => .ite (.pure (forall_mem_nil _)) ?_
  refine .bind (yields_argument sound) fun first own => .skip fun _ => ?_
  split
  · refine .bind (yields_generator sound).many1 fun _ found => .skip fun _ => .skip
      fun _ => .pure ?_
    exact forall_mem_singleton.mpr (shaped_comprehension own (forall_mem_nil _) found)
  · refine .bind (yields_argument sound).andThen.many fun _ rest => .skip fun _ => .skip
      fun _ => .skip fun _ => .pure ?_
    exact shaped_arguments (forall_mem_cons.mpr ⟨own, rest⟩)

theorem yields_subscriptPart (sound : n.Sound) : Yields n.subscriptPart Expr.Shaped := by
  refine .skip fun _ => .ite (yields_starred sound.expression)
    (.skip fun _ => .ite (yields_assignment sound) ?_)
  refine .skip fun _ => .bind sound.expression.maybe fun lower low => .skip fun _ => .ite ?_ ?_
  · refine .bind sound.expression.maybe fun upper high => .skip fun _ => ?_
    have bounds := forall_mem_append.mpr ⟨low, high⟩
    refine .ite (.bind sound.expression.maybe fun _ step => ?_)
      (.bind (.absent Expr.Shaped) fun _ step => ?_)
    all_goals exact .skip fun _ => .pure (.mk trivial (forall_mem_append.mpr ⟨bounds, step⟩))
  · cases lower with
    | none => exact .fail
    | some e => exact .pure (low e (mem_singleton_self e))

theorem yields_subscript (sound : n.Sound) : Yields n.subscript Expr.Shaped := by
  refine .skip fun _ => .bind (yields_subscriptPart sound) fun _ first => ?_
  refine .bind (yields_subscriptPart sound).andThen.many fun _ rest => .skip fun _ => .ite
    (.pure first) ?_
  exact .skip fun _ => .pure (.mk trivial (forall_mem_cons.mpr ⟨first, rest⟩))

/-- The expressions of a suffix. -/
def Suffix.parts : Suffix → List Expr
  | .member _ => []
  | .call args keywords => args ++ keywords.map Keyword.value
  | .subscript index => [index]

theorem yields_suffix (sound : n.Sound) (start : Position) :
    Yields (n.suffix start) fun found => ∀ e ∈ found.1.parts, e.Shaped := by
  refine .bind (Q := fun s => ∀ e ∈ s.parts, e.Shaped) (.orElse ?_ (.orElse ?_ ?_))
    fun _ all => .skip fun _ => .pure all
  · exact .skip fun _ => .skip fun _ => .pure (forall_mem_nil _)
  · exact .bind (yields_called sound) fun (_, _) all => .pure all
  · exact .skip fun _ => .bind (yields_subscript sound) fun _ own => .skip fun _ => .pure
      (forall_mem_singleton.mpr own)

theorem shaped_suffixes {suffixes : List (Suffix × Location)}
    (all : ∀ s ∈ suffixes, ∀ e ∈ s.1.parts, e.Shaped) {e : Expr} (own : e.Shaped) :
    (suffixes.foldl Suffix.apply e).Shaped := by
  induction suffixes generalizing e with
  | nil => exact own
  | cons s rest ih =>
    obtain ⟨parts, others⟩ := forall_mem_cons.mp all
    refine ih others ?_
    obtain ⟨suffix, loc⟩ := s
    cases suffix with
    | member => exact .mk trivial (forall_mem_singleton.mpr own)
    | call => exact .mk trivial (forall_mem_cons.mpr ⟨own, parts⟩)
    | subscript => exact .mk trivial (forall_mem_cons.mpr ⟨own, parts⟩)

theorem yields_primaryRule (sound : n.Sound) : Yields n.primaryRule Expr.Shaped :=
  .skip fun _ => .bind (yields_atom sound) fun _ own => .bind (yields_suffix sound _).many
      fun _ all =>
    .pure (shaped_suffixes all own)

theorem yields_awaited (sound : n.Sound) : Yields n.awaited Expr.Shaped := by
  refine .skip fun _ => .skip fun _ => .ite (.bind (yields_primaryRule sound) fun _ own => ?_)
    (yields_primaryRule sound)
  exact .skip fun _ => .pure (.mk trivial (forall_mem_singleton.mpr own))

theorem yields_power (sound : n.Sound) : Yields n.power Expr.Shaped := by
  refine .skip fun _ => .bind (yields_awaited sound) fun _ base => .skip fun _ => .ite ?_
    (.pure base)
  exact .bind sound.factor fun _ exponent => .skip fun _ => .pure
    (.mk trivial (forall_mem_pair base exponent))

theorem yields_factorRule (sound : n.Sound) : Yields n.factorRule Expr.Shaped := by
  refine .skip fun _ => .skip fun sign => ?_
  cases sign with
  | none => exact yields_power sound
  | some => exact .bind sound.factor fun _ own => .skip fun _ => .pure (.mk trivial
      (forall_mem_singleton.mpr own))

theorem yields_joined {operand : Rule Expr} (known : Yields operand Expr.Shaped)
    (operators : List String) : Yields (joined operand operators) Expr.Shaped := by
  refine .skip fun _ => .bind known fun first own => ?_
  refine .bind (Q := fun found => ∀ x ∈ found, x.2.1.Shaped) (.many ?_) fun rest others => .pure ?_
  · exact .skip fun _ => .bind known fun _ own => .skip fun _ => .pure own
  induction rest generalizing first with
  | nil => exact own
  | cons found rest ih =>
    obtain ⟨right, others⟩ := forall_mem_cons.mp others
    exact ih _ (.mk trivial (forall_mem_pair own right)) others

theorem yields_bitwiseOrRule (sound : n.Sound) : Yields n.bitwiseOrRule Expr.Shaped :=
  yields_joined (yields_joined (yields_joined (yields_joined (yields_joined (yields_joined
    (yields_factorRule sound) _) _) _) _) _) _

theorem yields_comparison (sound : n.Sound) : Yields n.comparison Expr.Shaped := by
  refine .skip fun _ => .bind (yields_bitwiseOrRule sound) fun _ left => ?_
  refine .bind (Q := fun found => ∀ x ∈ found, x.2.Shaped) (.many ?_) fun _ rest => .ite
    (.pure left) ?_
  · exact .skip fun _ => .bind (yields_bitwiseOrRule sound) fun _ own => .pure own
  refine .skip fun _ => .pure (.mk ((length_map _).trans (length_map _).symm)
    (forall_mem_cons.mpr ⟨left, ?_⟩))
  exact forall_mem_map.mpr rest

theorem yields_inversionRule (sound : n.Sound) : Yields n.inversionRule Expr.Shaped := by
  refine .skip fun _ => .skip fun _ => .ite (.bind sound.inversion fun _ own => ?_)
    (yields_comparison sound)
  exact .skip fun _ => .pure (.mk trivial (forall_mem_singleton.mpr own))

theorem yields_chained {operand : Rule Expr} (known : Yields operand Expr.Shaped) (word : String) :
    Yields (chained operand word) Expr.Shaped := by
  refine .skip fun _ => .bind known fun _ first => .bind known.andThen.many fun _ rest => .ite
    (.pure first) ?_
  exact .skip fun _ => .pure (.mk trivial (forall_mem_cons.mpr ⟨first, rest⟩))

theorem yields_disjunctionRule (sound : n.Sound) : Yields n.disjunctionRule Expr.Shaped :=
  yields_chained (yields_chained (yields_inversionRule sound) _) _

theorem yields_annotated {hint : Option (Rule Expr)}
    (known : ∀ rule ∈ hint, Yields rule Expr.Shaped) :
    Yields (annotated hint) fun arg => ∀ e ∈ arg.hint.toList, e.Shaped := by
  refine .skip fun _ => ?_
  cases hint with
  | none => exact .bind (.absent Expr.Shaped) fun _ note => .pure note
  | some rule =>
    refine .skip fun _ => .ite (.bind (known rule rfl).given fun _ note => ?_)
      (.bind (.absent Expr.Shaped) fun _ note => ?_)
    all_goals exact .pure note

/-- The expressions of what has been read as a parameter. -/
def Parameter.parts : Parameter → List Expr
  | .plain arg default => arg.hint.toList ++ default.toList
  | .star arg => arg.toList.flatMap fun arg => arg.hint.toList
  | .doubleStar arg => arg.hint.toList
  | .slash => []

theorem yields_parameter (sound : n.Sound) (annotates : Bool) :
    Yields (n.parameter annotates) fun read => ∀ e ∈ read.parts, e.Shaped := by
  have notes : ∀ {rule : Rule Expr}, Yields rule Expr.Shaped →
      ∀ found ∈ if annotates then some rule else none, Yields found Expr.Shaped := by
    intro rule known found
    cases annotates
    · exact nofun
    · rintro ⟨⟩
      exact known
  have plain := yields_annotated (notes sound.expression)
  refine .skip fun _ => .ite (.pure (forall_mem_nil _))
    (.skip fun _ => .ite ?_ (.skip fun _ => .ite ?_ ?_))
  · exact .bind plain fun _ held => .pure held
  · exact .bind (yields_annotated (notes (yields_starExpression sound))).maybe fun _ held =>
      .pure (forall_mem_flatMap held)
  · refine .bind plain fun _ held => .skip fun _ => .ite
      (.bind sound.expression fun _ own => .pure ?_) (.pure ?_)
    · exact forall_mem_append.mpr ⟨held, forall_mem_singleton.mpr own⟩
    · exact forall_mem_append.mpr ⟨held, forall_mem_nil _⟩

theorem hint_subset_of_starArg? {p : Parameter} {arg : Arg Expr} (same : p.starArg? = some arg) :
    arg.hint.toList ⊆ p.parts := by
  cases p
  case star found =>
    obtain rfl : found = some arg := same
    exact subset_append_left _ _
  all_goals exact absurd same (Option.some_ne_none arg).symm

theorem hint_subset_of_doubleStarArg? {p : Parameter} {arg : Arg Expr}
    (same : p.doubleStarArg? = some arg) : arg.hint.toList ⊆ p.parts := by
  cases p
  case doubleStar found =>
    obtain rfl := Option.some.inj same
    exact List.Subset.refl _
  all_goals exact absurd same (Option.some_ne_none arg).symm

/-- Every default that has been read has its parameter. -/
theorem aligned_gathered (ps : List Parameter) : (gathered ps).Aligned := by
  refine ⟨?_, (length_map _).trans (length_map _).symm⟩
  have some := length_filterMap_le Prod.snd
    ((ps.takeWhile fun p => !p.isStar).filterMap Parameter.plain?)
  simp only [gathered, Arguments.positional, length_append, length_map, length_drop]
  omega

/-- What the parameters hold has been read as part of one of them. -/
theorem shaped_gathered {ps : List Parameter} (all : ∀ p ∈ ps, ∀ e ∈ p.parts, e.Shaped) :
    ∀ e ∈ (gathered ps).parts, e.Shaped := by
  have plain : ∀ {found : List Parameter}, found ⊆ ps → ∀ x ∈ found.filterMap Parameter.plain?,
      (∀ e ∈ x.1.hint.toList, e.Shaped) ∧ ∀ e ∈ x.2.toList, e.Shaped := by
    intro found inside x member
    obtain ⟨p, among, same⟩ := mem_filterMap.mp member
    cases p
    case plain arg default =>
      obtain rfl := Option.some.inj same
      exact forall_mem_append.mp (all _ (inside among))
    all_goals exact absurd same (Option.some_ne_none x).symm
  have front : (ps.takeWhile fun p => !p.isStar) ⊆ ps := (takeWhile_sublist _).subset
  have back : (ps.dropWhile fun p => !p.isStar) ⊆ ps := (dropWhile_sublist _).subset
  have starred : ∀ {arg? : Parameter → Option (Arg Expr)}, (∀ {p arg}, arg? p = some arg →
      arg.hint.toList ⊆ p.parts) → ∀ arg ∈ (ps.findSome? arg?).toList, ∀ e ∈ arg.hint.toList,
      e.Shaped := by
    intro arg? own arg member e held
    obtain ⟨p, among, same⟩ := exists_of_findSome?_eq_some (Option.mem_toList.mp member)
    exact all p among e (own same held)
  simp only [gathered, Arguments.parts, Arguments.positional, forall_mem_append, flatMap_append]
  refine ⟨⟨⟨⟨⟨⟨forall_mem_flatMap ?_, forall_mem_flatMap ?_⟩, fun e member => ?_⟩,
    forall_mem_flatMap (starred hint_subset_of_starArg?)⟩, forall_mem_flatMap ?_⟩,
    forall_mem_flatMap ?_⟩, forall_mem_flatMap (starred hint_subset_of_doubleStarArg?)⟩
  · refine forall_mem_map.mpr fun x member => ?_
    split at member
    · exact (plain (List.Subset.trans (takeWhile_sublist _).subset front) x member).1
    · exact absurd member not_mem_nil
  · exact forall_mem_map.mpr fun x member => (plain front x (mem_of_mem_drop member)).1
  · obtain ⟨x, member, own⟩ := mem_filterMap.mp member
    exact (plain front x member).2 e (Option.mem_toList.mpr own)
  · exact forall_mem_map.mpr fun x member => (plain back x member).1
  · exact forall_mem_map.mpr fun x member => (plain back x member).2

theorem yields_parameters (sound : n.Sound) (annotates : Bool) :
    Yields (n.parameters annotates) fun params => params.Aligned ∧ ∀ e ∈ params.parts, e.Shaped :=
  .bind (yields_parameter sound annotates).listed.maybe fun _ held => .skip fun _ =>
    .pure ⟨aligned_gathered _, shaped_gathered (forall_mem_getD held)⟩

theorem yields_lambda (sound : n.Sound) : Yields n.lambda Expr.Shaped := by
  refine .skip fun _ => .skip fun _ => .bind (yields_parameters sound false)
    fun _ ⟨aligned, given⟩ => .skip fun _ => ?_
  refine .bind sound.expression fun _ body => .skip fun _ => .pure (.mk aligned ?_)
  exact forall_mem_append.mpr ⟨given, forall_mem_singleton.mpr body⟩

theorem yields_conditionalRest (sound : n.Sound) :
    Yields n.conditionalRest fun found => found.1.Shaped ∧ found.2.Shaped :=
  .skip fun _ => .bind (yields_disjunctionRule sound) fun _ test => .skip
      fun _ => .bind sound.expression fun _ orelse =>
    .pure ⟨test, orelse⟩

theorem yields_expressionRule (sound : n.Sound) : Yields n.expressionRule Expr.Shaped := by
  refine .skip fun _ => .ite (yields_lambda sound)
    (.skip fun _ => .bind (yields_disjunctionRule sound) fun _ body => ?_)
  refine .bind (yields_conditionalRest sound).maybe fun found rest => ?_
  split
  · exact .pure body
  · obtain ⟨test, orelse⟩ := rest _ (mem_singleton_self _)
    exact .skip fun _ => .pure (.mk trivial
      (forall_mem_cons.mpr ⟨test, forall_mem_pair body orelse⟩))

theorem sound_outward (sound : n.Sound) : n.outward.Sound where
  expression := yields_expressionRule sound
  disjunction := yields_disjunctionRule sound
  inversion := yields_inversionRule sound
  bitwiseOr := yields_bitwiseOrRule sound
  factor := yields_factorRule sound
  primary := yields_primaryRule sound
  replacement text brace e reads := by
    change n.replacementRule text brace = some e at reads
    unfold replacementRule at reads
    split at reads
    · exact nomatch reads
    · obtain ⟨⟨_, rest⟩, read, rfl⟩ := Option.map_eq_some_iff.mp reads
      have inner : Sound { n with expression := n.expressionRule } :=
      { sound with expression := yields_expressionRule sound }
      exact yields_tupled (yields_starExpression inner) _ _ rest read

/-- At any depth the rules read shaped expressions. -/
theorem sound_upTo (depth : Nat) : (upTo depth).Sound := by
  induction depth with
  | zero => exact ⟨.fail, .fail, .fail, .fail, .fail, .fail, nofun⟩
  | succ depth ih => exact sound_outward ih

end Nested

end Lineage.Grammar
