import Lineage.Grammar.Statement

/-!
The shape of what the grammar reads. Every comprehension goes over something, every assignment
expression assigns to a name, and every default, sign of a comparison and key of a dictionary
belongs to something, at any depth and in the strings of a text as well.
-/

namespace Lineage

open List

namespace Arguments

variable {α : Type}

/-- The annotations and defaults of parameters. -/
def parts (a : Arguments α) : List α :=
  a.positional.flatMap (fun arg => arg.hint.toList) ++ a.defaults
    ++ a.vararg.toList.flatMap (fun arg => arg.hint.toList)
    ++ a.kwonly.flatMap (fun arg => arg.hint.toList) ++ a.kwDefaults.flatMap Option.toList
    ++ a.kwarg.toList.flatMap (fun arg => arg.hint.toList)

/-- Every default has its parameter. -/
structure Aligned (a : Arguments α) : Prop where
  positional : a.defaults.length ≤ a.positional.length
  keywords : a.kwDefaults.length = a.kwonly.length

/-- Parameters with their defaults hold the annotations and the defaults. -/
theorem perm_zipWith_param (star : String) {args : List (Arg α)} {defaults : List (Option α)}
    (same : defaults.length = args.length) :
    ((List.zipWith (Arg.param star) args defaults).flatMap fun p => p.hint.toList ++
      p.default.toList).Perm (args.flatMap (fun arg => arg.hint.toList) ++
        defaults.flatMap Option.toList) := by
  induction args generalizing defaults with
  | nil =>
    obtain rfl := length_eq_zero_iff.mp same
    exact .refl _
  | cons arg rest ih =>
    obtain ⟨default, others, rfl⟩ := exists_cons_of_length_eq_add_one same
    have later := ih (Nat.succ.inj same)
    simp only [zipWith_cons_cons, flatMap_cons, Arg.param, append_assoc] at later ⊢
    exact ((later.append_left _).trans (perm_append_comm_assoc ..)).append_left _

theorem Aligned.length_positionalDefaults {a : Arguments α} (aligned : a.Aligned) :
    a.positionalDefaults.length = a.positional.length := by
  rw [positionalDefaults, length_append, length_replicate, length_map]
  exact Nat.sub_add_cancel aligned.positional

theorem toList_positionalDefaults (a : Arguments α) : a.positionalDefaults.flatMap Option.toList =
    a.defaults := by
  simp [positionalDefaults, flatMap_map, flatMap_replicate]

/-- Nothing that is written is lost when the defaults are given to their parameters. -/
theorem Aligned.perm_params {a : Arguments α} (aligned : a.Aligned) :
    (a.params.flatMap fun p => p.hint.toList ++ p.default.toList).Perm a.parts := by
  have positional := perm_zipWith_param "" aligned.length_positionalDefaults
  have keywords := perm_zipWith_param "" aligned.keywords
  have starred : ∀ (star : String) (arg : Option (Arg α)),
      ((arg.map fun arg => arg.param star none).toList.flatMap fun p => p.hint.toList ++
        p.default.toList) = arg.toList.flatMap fun arg => arg.hint.toList := by
    intro star arg
    cases arg <;> simp [Arg.param]
  rw [toList_positionalDefaults] at positional
  simp only [params, parts, flatMap_append, starred]
  have all := ((positional.append_right (a.vararg.toList.flatMap fun arg => arg.hint.toList)).append
    keywords).append_right (a.kwarg.toList.flatMap fun arg => arg.hint.toList)
  rwa [← append_assoc] at all

end Arguments

namespace Grammar

namespace Expr

/-- The expressions that an expression is directly made of. -/
def parts : Expr → List Expr
  | .boolean _ _ first rest => first :: rest
  | .named _ target value => [target, value]
  | .binary _ _ left right => [left, right]
  | .unary _ _ operand => [operand]
  | .lambda _ params body => params.parts ++ [body]
  | .conditional _ test body orelse => [test, body, orelse]
  | .dict _ keys values => keys.flatMap Option.toList ++ values
  | .set _ items | .list _ items | .tuple _ items | .joined _ items => items
  | .comprehension _ _ element value generators =>
    element :: value.toList ++ generators.flatMap fun g => g.target :: g.iter :: g.conditions
  | .await _ value | .yieldFrom _ value | .member _ value _ | .starred _ value => [value]
  | .yield _ value => value.toList
  | .compare _ left _ comparators => left :: comparators
  | .call _ func args keywords => func :: args ++ keywords.map Keyword.value
  | .formatted _ value spec => value :: spec.toList
  | .subscript _ value index => [value, index]
  | .slice _ lower upper step => lower.toList ++ upper.toList ++ step.toList
  | .constant .. | .name .. => []

/-- Whether an expression is a name. -/
def IsName : Expr → Prop
  | .name .. => True
  | _ => False

/-- What a part of a formatted text holds: a value and its format, or itself. -/
def pieces : Expr → List Expr
  | .formatted _ value spec => value :: spec.toList
  | e => [e]

/-- The expressions that an expression is made of, those of a formatted text without their
formatting. -/
def operands : Expr → List Expr
  | .joined _ values => values.flatMap pieces
  | e => e.parts

/-- What an expression needs by itself: a comprehension something to go over, an assignment a name
to assign to, every default a parameter, every sign of a chain an operand, and every key a value.
Formatting stands in a formatted text only. -/
def WellMade : Expr → Prop
  | .named _ target _ => target.IsName
  | .comprehension _ _ _ _ generators => generators ≠ []
  | .lambda _ params _ => params.Aligned
  | .compare _ _ ops comparators => ops.length = comparators.length
  | .dict _ keys values => keys.length = values.length
  | .formatted .. => False
  | _ => True

/-- An expression all parts of which are well made. -/
inductive Shaped : Expr → Prop where
  | mk {e : Expr} (own : e.WellMade) (parts : ∀ p ∈ e.operands, Shaped p) : Shaped e

end Expr

namespace Stmt

/-- The expressions of a statement itself. -/
def parts : Stmt → List Expr
  | .functionDef _ _ params returns _ decorators _ =>
    decorators ++ params.parts ++ returns.toList
  | .classDef _ _ bases keywords _ decorators => decorators ++ bases ++ keywords.map Keyword.value
  | .returning _ value => value.toList
  | .delete _ targets => targets
  | .assign _ targets value => targets ++ [value]
  | .augment _ target _ value => [target, value]
  | .annotate _ target hint value => target :: hint :: value.toList
  | .forLoop _ target iter _ _ _ => [target, iter]
  | .whileLoop _ test _ _ | .branch _ test _ _ => [test]
  | .context _ items _ _ => items.flatMap fun i => i.context :: i.target.toList
  | .raising _ exception cause => exception.toList ++ cause.toList
  | .attempt _ _ handlers _ _ => handlers.flatMap fun h => h.type.toList
  | .assertion _ test message => test :: message.toList
  | .expression _ value => [value]
  | .matching _ | .imports .. | .importsFrom .. | .global .. | .nonlocal .. | .pass _
  | .break _ | .continue _ => []

/-- The statements in the blocks and bodies of a statement. -/
def inner : Stmt → List Stmt
  | .functionDef _ _ _ _ body _ _ | .classDef _ _ _ _ body _ | .context _ _ body _ => body
  | .forLoop _ _ _ body orelse _ | .whileLoop _ _ body orelse | .branch _ _ body orelse =>
    body ++ orelse
  | .attempt _ body handlers orelse final => body ++ handlers.flatMap (fun h => h.body) ++
      orelse ++ final
  | _ => []

/-- What a statement needs by itself: every default a parameter. -/
def WellMade : Stmt → Prop
  | .functionDef _ _ params _ _ _ _ => params.Aligned
  | _ => True

/-- A statement that is well made, with all that stands in it. -/
inductive Shaped : Stmt → Prop where
  | mk {s : Stmt} (own : s.WellMade) (parts : ∀ e ∈ s.parts, e.Shaped)
      (inner : ∀ c ∈ s.inner, Shaped c) : Shaped s

end Stmt

/-! ### Strings -/

/-- A piece of a formatted text whose expressions are shaped. -/
def Piece.Shaped : Piece → Prop
  | .text _ => True
  | .value e => ∀ p ∈ e.pieces, p.Shaped

theorem shaped_constant (loc : Location) (value : Literal) : (Expr.constant loc value).Shaped :=
  .mk trivial (forall_mem_nil _)

theorem shaped_joined {loc : Location} {values : List Expr}
    (all : ∀ e ∈ values, ∀ p ∈ e.pieces, p.Shaped) : (Expr.joined loc values).Shaped := by
  refine .mk trivial fun p member => ?_
  obtain ⟨e, among, own⟩ := mem_flatMap.mp member
  exact all e among p own

theorem shaped_joinPieces (loc : Location) {ps : List Piece} (all : ∀ p ∈ ps, p.Shaped) :
    ∀ e ∈ joinPieces loc ps, ∀ p ∈ e.pieces, p.Shaped := by
  have close : ∀ (codes : List Nat) (out : List Expr), (∀ e ∈ out, ∀ p ∈ e.pieces, p.Shaped) →
      ∀ e ∈ if codes.isEmpty then out else .constant loc (.text codes) :: out, ∀ p ∈ e.pieces,
      p.Shaped := by
    intro codes out held
    split
    · exact held
    · exact forall_mem_cons.mpr ⟨forall_mem_singleton.mpr (shaped_constant loc _), held⟩
  refine close _ _ ?_
  induction ps with
  | nil => exact forall_mem_nil _
  | cons p rest ih =>
    obtain ⟨own, others⟩ := forall_mem_cons.mp all
    cases p with
    | text codes => exact ih others
    | value e => exact forall_mem_cons.mpr ⟨own, close _ _ (ih others)⟩

/-- The reader of expressions in strings gives shaped ones only. -/
def ReadsShaped (read : List Char → Position → Option Expr) : Prop :=
  ∀ cs place e, read cs place = some e → e.Shaped

variable {read : List Char → Position → Option Expr}

theorem forall_bind {α β : Type} {o : Option α} {f : α → Option β} {P : β → Prop}
    (all : ∀ a, o = some a → ∀ b ∈ f a, P b) : ∀ b ∈ o >>= f, P b := by
  intro b found
  obtain ⟨a, some_, rest⟩ := Option.bind_eq_some_iff.mp found
  exact all a some_ b rest

theorem shaped_pieces (known : ReadsShaped read) (loc : Location) (raw : Bool) (fuel : Nat) :
    ∀ (depth : Nat) (cs : List Char) (place : Position),
      ∀ found ∈ pieces read loc raw fuel depth cs place, ∀ p ∈ found.1, p.Shaped := by
  induction fuel with
  | zero => exact fun depth cs place found read => nomatch read
  | succ fuel ih =>
    intro depth cs place
    rw [pieces]
    refine forall_bind fun (run, stop, rest) _ => ?_
    -- Both ways of decoding the text in front of the brace go on alike.
    suffices after : ∀ codes : List Nat, ∀ found ∈ (_ : Option (List Piece × List Char × Position)),
        ∀ p ∈ found.1, p.Shaped from by
      dsimp only
      split
      · exact forall_bind fun codes _ => after codes
      · exact forall_bind fun codes _ => after codes
    intro codes
    cases stop with
    | atEnd =>
      rintro _ ⟨⟩
      exact forall_mem_singleton.mpr trivial
    | doubled =>
      refine forall_bind fun (more, after, stop) others => ?_
      rintro _ ⟨⟩
      exact forall_mem_cons.mpr ⟨trivial, ih _ _ _ _ others⟩
    | atBrace =>
      have value : ∀ {e : Expr} {spec : Option Expr} {more : List Piece} (label : List Nat),
          e.Shaped → (∀ f ∈ spec, f.Shaped) → (∀ p ∈ more, p.Shaped) →
          ∀ p ∈ .text codes :: .text label :: .value (.formatted loc e spec) :: more, p.Shaped := by
        intro e spec more label own format others
        refine forall_mem_cons.mpr ⟨trivial,
          forall_mem_cons.mpr ⟨trivial, forall_mem_cons.mpr ⟨?_, others⟩⟩⟩
        exact forall_mem_cons.mpr ⟨own, fun f member => format f (Option.mem_toList.mp member)⟩
      dsimp only
      split
      · split
        · exact nofun
        · refine forall_bind fun (text, after) _ => ?_
          dsimp only
          split
          · exact nofun
          · refine forall_bind fun e found => forall_bind fun unconverted _ => ?_
            have own := known _ _ e found
            split
            · refine forall_bind fun (inner, _, _) spec => forall_bind ?_
              rintro _ ⟨⟩
              dsimp only
              split
              · refine forall_bind fun (more, _, _) others => ?_
                rintro _ ⟨⟩
                refine value _ own ?_ (ih _ _ _ _ others)
                rintro _ ⟨⟩
                exact shaped_joined (shaped_joinPieces loc (ih _ _ _ _ spec))
              · exact nofun
            · refine forall_bind ?_
              rintro _ ⟨⟩
              dsimp only
              split
              · refine forall_bind fun (more, _, _) others => ?_
                rintro _ ⟨⟩
                exact value _ own nofun (ih _ _ _ _ others)
              · exact nofun
      · rintro _ ⟨⟩
        exact forall_mem_singleton.mpr trivial

theorem forall_mapM {α β : Type} {f : α → Option β} {P : β → Prop} (all : ∀ a, ∀ b ∈ f a, P b)
    {as : List α} : ∀ bs ∈ as.mapM f, ∀ b ∈ bs, P b := by
  induction as with
  | nil =>
    rintro _ ⟨⟩
    exact forall_mem_nil _
  | cons a rest ih =>
    rw [mapM_cons]
    refine forall_bind fun b found => forall_bind fun bs others => ?_
    rintro _ ⟨⟩
    exact forall_mem_cons.mpr ⟨all a b found, ih bs others⟩

theorem shaped_quote (known : ReadsShaped read) (loc : Location) (q : Quote) :
    ∀ ps ∈ q.pieces read loc, ∀ p ∈ ps, p.Shaped := by
  unfold Quote.pieces
  split
  · refine forall_bind fun (found, rest, _) read => ?_
    dsimp only
    split
    · rintro _ ⟨⟩
      exact shaped_pieces known loc _ _ _ _ _ _ read
    · exact nofun
  · split
    · rintro _ ⟨⟩
      exact forall_mem_singleton.mpr trivial
    · refine forall_bind fun codes _ => ?_
      rintro _ ⟨⟩
      exact forall_mem_singleton.mpr trivial

/-- Neighbouring strings make a shaped expression. -/
theorem shaped_stringExpr (known : ReadsShaped read) {loc : Location} {tokens : List Token} :
    ∀ e ∈ stringExpr read loc tokens, e.Shaped := by
  unfold stringExpr
  dsimp only
  split
  · refine forall_bind fun codes _ => ?_
    rintro _ ⟨⟩
    exact shaped_constant loc _
  · split
    · exact nofun
    · refine forall_bind fun found each => ?_
      have all : ∀ p ∈ found.flatten, p.Shaped := by
        intro p member
        obtain ⟨ps, among, member⟩ := mem_flatten.mp member
        exact forall_mapM (shaped_quote known loc) found each ps among p member
      split
      · rintro _ ⟨⟩
        exact shaped_joined (shaped_joinPieces loc all)
      · rintro _ ⟨⟩
        exact shaped_constant loc _

end Grammar

end Lineage
