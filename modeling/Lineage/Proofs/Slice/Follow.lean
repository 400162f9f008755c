import Lineage.Slice.Closure
import Lineage.Proofs.Flow.Settle

/-!
Following goals finds the least set of goals that holds the first ones and all that its members lead
to, and the names that its members leave unresolved. In which order goals are followed makes no
difference, and neither does the number of rounds once there are as many as goals.
-/

namespace Lineage.Slice

open List Std

namespace Closure

variable {c d : Closure} {g h : Goal}

@[simp] theorem has_empty (g : Goal) : Closure.empty.has g = false := by
  cases g <;> simp [Closure.has, Closure.empty]

@[simp] theorem has_add : (c.add g).has h = true ↔ h = g ∨ c.has h = true := by
  cases g <;> cases h <;>
    simp only [Closure.add, Closure.has, ExtTreeSet.contains_iff_mem, ExtTreeSet.mem_insert,
      Std.LawfulEqOrd.compare_eq_iff_eq, Goal.statement.injEq, Goal.call.injEq, reduceCtorEq,
      false_or]
  · exact or_congr_left eq_comm
  · exact or_congr_left eq_comm

@[simp] theorem has_leave (names : List String) : (c.leave names).has g = c.has g := by
  cases g <;> rfl

@[simp] theorem unresolved_add : (c.add g).unresolved = c.unresolved := by
  cases g <;> rfl

@[simp] theorem mem_unresolved_leave {names : List String} {name : String} :
    name ∈ (c.leave names).unresolved ↔ name ∈ c.unresolved ∨ name ∈ names := by
  simp [Closure.leave, ExtTreeSet.mem_insertMany_list]

/-- Following a goal for the first time leaves fewer to be followed. -/
theorem countP_add_lt {all : List Goal} (names : List String) (fresh : c.has g = false)
    (member : g ∈ all) : all.countP (fun h => !((c.add g).leave names).has h) < all.countP
    fun h => !c.has h := by
  refine Flow.State.countP_lt_countP (fun h _ away => ?_) member (by simp) (by simp [fresh])
  cases held : c.has h with
  | false => rfl
  | true =>
    have now : (c.add g).has h = true := has_add.mpr (Or.inr held)
    simp [now] at away

/-- Closures that have followed the same goals and left the same names are the same. -/
theorem eq_of_same (goals : ∀ g, c.has g = true ↔ d.has g = true)
    (names : ∀ name, name ∈ c.unresolved ↔ name ∈ d.unresolved) : c = d := by
  obtain ⟨included, calls, unresolved⟩ := c
  obtain ⟨included', calls', unresolved'⟩ := d
  have same : included = included' := ExtTreeSet.ext_mem fun t => by
    simpa [Closure.has] using goals (.statement t)
  have sameCalls : calls = calls' := ExtTreeSet.ext_mem fun call => by
    simpa [Closure.has] using goals (.call call)
  have sameNames : unresolved = unresolved' := ExtTreeSet.ext_mem fun name => names name
  rw [same, sameCalls, sameNames]

end Closure

/-- The goals that come up when some goals are followed. -/
inductive Reached (s : Scene) (seeds : List Goal) : Goal → Prop where
  | seed {g : Goal} : g ∈ seeds → Reached s seeds g
  | follow {g h : Goal} : Reached s seeds g → h ∈ (s.follow g).goals → Reached s seeds h

theorem Reached.mono {s : Scene} {seeds more : List Goal} (subset : seeds ⊆ more) {g : Goal}
    (reached : Reached s seeds g) : Reached s more g := by
  induction reached with
  | seed member => exact .seed (subset member)
  | follow _ lead ih => exact .follow ih lead

/-- Goals are being followed: of those that have come up, some are still pending. -/
structure Underway (s : Scene) (seeds pending : List Goal) (c : Closure) : Prop where
  reached : ∀ g, c.has g = true ∨ g ∈ pending → Reached s seeds g
  lacking : ∀ name ∈ c.unresolved, ∃ g, Reached s seeds g ∧ name ∈ (s.follow g).unresolved
  seeds : ∀ g ∈ seeds, c.has g = true ∨ g ∈ pending
  leads : ∀ g, c.has g = true → ∀ h ∈ (s.follow g).goals, c.has h = true ∨ h ∈ pending
  names : ∀ g, c.has g = true → ∀ name ∈ (s.follow g).unresolved, name ∈ c.unresolved

theorem underway_empty (s : Scene) (seeds : List Goal) : Underway s seeds seeds .empty where
  reached g held := by
    rcases held with held | member
    · simp at held
    · exact .seed member
  lacking name member := absurd member ExtTreeSet.not_mem_empty
  seeds g member := Or.inr member
  leads g held := by simp at held
  names g held := by simp at held

namespace Underway

variable {s : Scene} {seeds pending rest : List Goal} {c d : Closure} {g : Goal}

/-- Goals that have been followed need not be pending. -/
theorem drop (underway : Underway s seeds pending c) (subset : rest ⊆ pending)
    (dropped : ∀ g ∈ pending, c.has g = true ∨ g ∈ rest) : Underway s seeds rest c where
  reached g held := underway.reached g (held.imp_right fun member => subset member)
  lacking := underway.lacking
  seeds g member := (underway.seeds g member).elim Or.inl (dropped g)
  leads g held h lead := (underway.leads g held h lead).elim Or.inl (dropped h)
  names := underway.names

/-- A pending goal is followed, and what it leads to is pending in its place. -/
theorem step (underway : Underway s seeds (g :: rest) c) :
    Underway s seeds ((s.follow g).goals ++ rest) ((c.add g).leave (s.follow g).unresolved) where
  reached h held := by
    have own : Reached s seeds g := underway.reached g (Or.inr (mem_cons_self ..))
    simp only [Closure.has_leave, Closure.has_add, mem_append] at held
    rcases held with (rfl | held) | lead | later
    · exact own
    · exact underway.reached h (Or.inl held)
    · exact .follow own lead
    · exact underway.reached h (Or.inr (mem_cons_of_mem _ later))
  lacking name member := by
    simp only [Closure.mem_unresolved_leave, Closure.unresolved_add] at member
    rcases member with before | now
    · exact underway.lacking name before
    · exact ⟨g, underway.reached g (Or.inr (mem_cons_self ..)), now⟩
  seeds h member := by
    have := underway.seeds h member
    simp only [Closure.has_leave, Closure.has_add, mem_append, mem_cons] at this ⊢
    grind
  leads h held k lead := by
    simp only [Closure.has_leave, Closure.has_add, mem_append] at held ⊢
    rcases held with rfl | held
    · exact Or.inr (Or.inl lead)
    · have := underway.leads h held k lead
      rw [mem_cons] at this
      grind
  names h held name lacks := by
    simp only [Closure.has_leave, Closure.has_add, Closure.mem_unresolved_leave,
      Closure.unresolved_add] at held ⊢
    rcases held with rfl | held
    · exact Or.inr lacks
    · exact Or.inl (underway.names h held name lacks)

/-- New goals are added when all others have been followed. -/
theorem extend (underway : Underway s seeds [] c) (more : List Goal) :
    Underway s (seeds ++ more) more c where
  reached g held := by
    rcases held with held | member
    · exact (underway.reached g (Or.inl held)).mono (subset_append_left _ _)
    · exact .seed (mem_append_right _ member)
  lacking name member := by
    obtain ⟨g, reached, lacks⟩ := underway.lacking name member
    exact ⟨g, reached.mono (subset_append_left _ _), lacks⟩
  seeds g member := by
    rcases mem_append.mp member with before | now
    · exact Or.inl ((underway.seeds g before).resolve_right not_mem_nil)
    · exact Or.inr now
  leads g held h lead := Or.inl ((underway.leads g held h lead).resolve_right not_mem_nil)
  names := underway.names

/-- When nothing is pending, the goals that have been followed are those that come up. -/
theorem has_iff (underway : Underway s seeds [] c) {g : Goal} :
    c.has g = true ↔ Reached s seeds g := by
  constructor
  · exact fun held => underway.reached g (Or.inl held)
  · intro reached
    induction reached with
    | seed member => exact (underway.seeds _ member).resolve_right not_mem_nil
    | follow _ lead ih => exact (underway.leads _ ih _ lead).resolve_right not_mem_nil

theorem mem_unresolved_iff (underway : Underway s seeds [] c) {name : String} :
    name ∈ c.unresolved ↔ ∃ g, Reached s seeds g ∧ name ∈ (s.follow g).unresolved := by
  constructor
  · exact underway.lacking name
  · rintro ⟨g, reached, lacks⟩
    exact underway.names g (underway.has_iff.mpr reached) name lacks

/-- There is one closure only in which nothing is pending. -/
theorem unique {others : List Goal} (first : Underway s seeds [] c)
    (second : Underway s others [] d) (same : ∀ g, g ∈ seeds ↔ g ∈ others) : c = d := by
  have reached : ∀ g, Reached s seeds g ↔ Reached s others g := fun g =>
    ⟨.mono fun g member => (same g).mp member, .mono fun g member => (same g).mpr member⟩
  refine Closure.eq_of_same (fun g => ?_) fun name => ?_
  · rw [first.has_iff, second.has_iff, reached]
  · simp only [first.mem_unresolved_iff, second.mem_unresolved_iff, reached]

/-- With at least as many rounds as there are goals left to follow, nothing stays pending. -/
theorem finish {all : List Goal} (closed : ∀ g ∈ all, (s.follow g).goals ⊆ all) {rounds : Nat}
    (underway : Underway s seeds pending c) (inside : pending ⊆ all)
    (enough : all.countP (fun g => !c.has g) ≤ rounds) :
    Underway s seeds [] (Closure.follow s rounds pending c) := by
  induction rounds generalizing pending c with
  | zero =>
    refine underway.drop (nil_subset _) fun g member => Or.inl ?_
    have none := countP_eq_zero.mp (Nat.le_zero.mp enough) g (inside member)
    simpa using none
  | succ rounds ih =>
    rw [Closure.follow]
    -- The goals that are dropped have been followed before.
    have dropped : ∀ g ∈ pending, c.has g = true ∨ g ∈ pending.dropWhile c.has := by
      intro g member
      rw [← takeWhile_append_dropWhile (p := c.has) (l := pending)] at member
      rcases mem_append.mp member with first | later
      · exact Or.inl (all_eq_true.mp all_takeWhile g first)
      · exact Or.inr later
    have kept := underway.drop (dropWhile_suffix _).subset dropped
    split
    · rename_i done
      rwa [done] at kept
    · rename_i g rest found
      have subset := List.Subset.trans (dropWhile_suffix c.has).subset inside
      rw [found] at kept subset
      obtain ⟨own, others⟩ := cons_subset.mp subset
      have fresh : c.has g = false := by
        have first := head?_dropWhile_not c.has pending
        rw [found] at first
        simpa using first
      refine ih kept.step (append_subset.mpr ⟨closed g own, others⟩) ?_
      have less := Closure.countP_add_lt (s.follow g).unresolved fresh own
      omega

end Underway

/-- The closures that may be met in following goals in any order: one goal that is known to be
needed is followed at a time, and the names it leaves unresolved are noted at any time later. -/
inductive Explored (s : Scene) (seeds : List Goal) : Closure → Prop where
  | start : Explored s seeds .empty
  | goal {c : Closure} {g : Goal} : Explored s seeds c →
      g ∈ seeds ∨ (∃ h, c.has h = true ∧ g ∈ (s.follow h).goals) → Explored s seeds (c.add g)
  | name {c : Closure} {g : Goal} {name : String} : Explored s seeds c → c.has g = true →
      name ∈ (s.follow g).unresolved → Explored s seeds (c.leave [name])

/-- Nothing is left to be followed or noted. -/
structure Exhausted (s : Scene) (seeds : List Goal) (c : Closure) : Prop where
  seeds : ∀ g ∈ seeds, c.has g = true
  leads : ∀ g, c.has g = true → ∀ h ∈ (s.follow g).goals, c.has h = true
  names : ∀ g, c.has g = true → ∀ name ∈ (s.follow g).unresolved, name ∈ c.unresolved

/-- Exploring in any order keeps to what comes up. -/
theorem Explored.sound {s : Scene} {seeds : List Goal} {c : Closure}
    (explored : Explored s seeds c) : (∀ g, c.has g = true → Reached s seeds g) ∧
      ∀ name ∈ c.unresolved, ∃ g, Reached s seeds g ∧ name ∈ (s.follow g).unresolved := by
  induction explored with
  | start => exact ⟨fun g held => by simp at held,
      fun name member => absurd member ExtTreeSet.not_mem_empty⟩
  | goal _ known ih =>
    refine ⟨fun h held => ?_, fun name member => ih.2 name (by simpa using member)⟩
    rcases Closure.has_add.mp held with rfl | held
    · rcases known with member | ⟨k, before, lead⟩
      · exact .seed member
      · exact .follow (ih.1 k before) lead
    · exact ih.1 h held
  | name _ held lacks ih =>
    refine ⟨fun h held => ih.1 h (by simpa using held), fun name member => ?_⟩
    rcases Closure.mem_unresolved_leave.mp member with before | now
    · exact ih.2 name before
    · obtain rfl := mem_singleton.mp now
      exact ⟨_, ih.1 _ held, lacks⟩

/-- However goals are explored, once nothing is left the closure is the same. -/
theorem Explored.underway {s : Scene} {seeds : List Goal} {c : Closure}
    (explored : Explored s seeds c) (exhausted : Exhausted s seeds c) : Underway s seeds [] c where
  reached g held := explored.sound.1 g (held.resolve_right not_mem_nil)
  lacking := explored.sound.2
  seeds g member := Or.inl (exhausted.seeds g member)
  leads g held h lead := Or.inl (exhausted.leads g held h lead)
  names := exhausted.names

end Lineage.Slice
