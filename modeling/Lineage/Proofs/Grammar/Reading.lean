import Lineage.Grammar.Statement

/-!
What rules read. A property of everything that a rule may read is told from its parts: for each way
of putting rules together there is one law.
-/

namespace Lineage.Grammar

open List

/-- Whatever the rule reads has the property. -/
def Yields {α : Type} (r : Rule α) (P : α → Prop) : Prop :=
  ∀ s a t, r s = some (a, t) → P a

namespace Yields

open Rule

variable {α β : Type} {P : α → Prop} {Q : β → Prop} {r other : Rule α}

theorem fail : Yields (Rule.fail : Rule α) P :=
  nofun

theorem pure {a : α} (held : P a) : Yields (Pure.pure a) P := by
  rintro s _ _ ⟨⟩
  exact held

theorem bind {f : β → Rule α} {q : Rule β} (first : Yields q Q)
    (then_ : ∀ b, Q b → Yields (f b) P) : Yields (q >>= f) P := by
  intro s a t succeeds
  obtain ⟨⟨b, u⟩, found, rest⟩ := Option.bind_eq_some_iff.mp succeeds
  exact then_ b (first s b u found) u a t rest

/-- What is read first does not matter. -/
theorem skip {f : β → Rule α} {q : Rule β} (then_ : ∀ b, Yields (f b) P) : Yields (q >>= f) P :=
  bind (fun _ _ _ _ => trivial : Yields q fun _ => True) fun b _ => then_ b

theorem andThen {q : Rule β} (second : Yields r P) : Yields (q *> r) P :=
  skip fun _ => second

theorem before {q : Rule β} (first : Yields r P) : Yields (r <* q) P :=
  bind first fun _ held => skip fun _ => pure held

theorem given (known : Yields r P) : Yields (some <$> r) fun found => ∀ a ∈ found.toList, P a :=
  bind known fun _ held => pure (forall_mem_singleton.mpr held)

theorem absent (P : α → Prop) : Yields (Pure.pure none)
    fun found : Option α => ∀ a ∈ found.toList, P a :=
  pure (forall_mem_nil _)

theorem orElse (first : Yields r P) (second : Yields other P) : Yields (r <|> other) P := by
  intro s a t succeeds
  rcases Option.or_eq_some_iff.mp (Option.orElse_eq_or.symm.trans succeeds) with found | ⟨_, found⟩
  · exact first s a t found
  · exact second s a t found

theorem ite {condition : Prop} [Decidable condition] (yes : Yields r P) (no : Yields other P) :
    Yields (if condition then r else other) P := by
  split
  · exact yes
  · exact no

/-- What has been read ends no earlier than it starts. -/
theorem since {start : Position} : Yields (Rule.since start) fun loc => loc.firstLine ≤
    loc.lastLine := by
  rintro s _ _ ⟨⟩
  exact start.firstLine_upTo_le s.last

theorem maybe (known : Yields r P) :
    Yields (Rule.maybe r) fun found => ∀ a ∈ found.toList, P a := by
  intro s found t succeeds
  unfold Rule.maybe at succeeds
  split at succeeds
  · cases succeeds
    exact forall_mem_nil _
  · rename_i reads
    cases succeeds
    exact forall_mem_singleton.mpr (known s _ _ reads)

theorem repeats (known : Yields r P) (s : Input) : ∀ a ∈ (Rule.repeats r s).1, P a := by
  fun_induction Rule.repeats r s with
  | case1 => exact forall_mem_nil _
  | case2 s a t reads _ _ ih => exact forall_mem_cons.mpr ⟨known s a t reads, ih⟩
  | case3 s a t reads => exact forall_mem_singleton.mpr (known s a t reads)

theorem many (known : Yields r P) : Yields (Rule.many r) fun found => ∀ a ∈ found, P a := by
  intro s found t succeeds
  have all := known.repeats s
  rwa [show Rule.repeats r s = (found, t) from Option.some.inj succeeds] at all

theorem many1 (known : Yields r P) : Yields (Rule.many1 r) fun found => found ≠ [] ∧
    ∀ a ∈ found, P a :=
  bind known fun _ first => bind known.many fun _ others =>
    pure ⟨cons_ne_nil _ _, forall_mem_cons.mpr ⟨first, others⟩⟩

theorem separated (known : Yields r P) : Yields (Rule.separated r) fun found => ∀ a ∈ found, P a :=
  bind known fun _ first => bind known.andThen.many fun _ others => pure
    (forall_mem_cons.mpr ⟨first, others⟩)

theorem listed (known : Yields r P) : Yields (Rule.listed r) fun found => ∀ a ∈ found, P a :=
  bind known.separated fun _ held => skip fun _ => pure held

end Yields

end Lineage.Grammar
