import Lineage.Proofs.Flow.PlanInvariant
import Lineage.Proofs.Flow.Settle

/-!
The facts of a block stand in the order of its statements. Whatever an analysis does, each entry
holds facts of the statement whose place has that index. So however often a loop is passed, each
statement has one entry, at its index.
-/

namespace Lineage.Flow

open List

variable {places : List Place} {i k : Nat} {m n : Node} {around : Option (Nat × Node)}
  {place : Place} {p q : Progress} {f g : StatementFacts}

namespace Place

/-- The facts are those of the statement at a place. They say where it stands, and they make it
depend on the statement around and on nothing else in that way. -/
structure Held (place : Place) (f : StatementFacts) : Prop where
  index : f.index = place.index
  parent : f.parent = place.parent.map Prod.fst
  node : f.node = place.node
  controls : f.controls = (place.parent.map fun around => ⟨.control, around.2.loc, f.location,
    none⟩).toList

theorem Held.control (held : place.Held f) (around : place.parent = some (k, m)) :
    ⟨.control, m.loc, f.location, none⟩ ∈ f.inbound := by
  have edge : ⟨.control, m.loc, f.location, none⟩ ∈ f.controls := by
    rw [held.controls, around]
    exact mem_singleton_self _
  exact (mem_filter.mp edge).1

/-- Later facts of a statement still are those of its place. -/
theorem Held.mono (held : place.Held f) (grows : f.Grows g) : place.Held g where
  index := grows.index.trans held.index
  parent := grows.parent.trans held.parent
  node := grows.node.trans held.node
  controls := by
    rw [grows.controls, held.controls, StatementFacts.location, StatementFacts.location, grows.node]

/-- The places are listed by their indices, and with a place the one around it is listed as well. -/
structure Listed (places : List Place) (place : Place) : Prop where
  spot : places[place.index]? = some place
  rooted : ∀ k m, place.parent = some (k, m) → k < place.index ∧ ∃ outer, places[k]? = some outer ∧
    outer.node = m

end Place

/-- All facts are those of the places with their indices. -/
def Filled (places : List Place) (p : Progress) : Prop :=
  ∀ k f, p.facts[k]? = some f → ∃ place : Place, places[k]? = some place ∧ place.index = k ∧
    place.Held f

namespace Filled

theorem works (filled : Filled places p) (works : Progress.Works i p q) {size : Nat}
    (least : size ≤ p.facts.size) : Filled places q ∧ size ≤ q.facts.size := by
  refine ⟨fun k g found => ?_, works.size.symm ▸ least⟩
  by_cases same : k = i
  · subst same
    have inside : k < p.facts.size := works.size ▸ (Array.getElem?_eq_some_iff.mp found).1
    obtain ⟨h, foundH, grows⟩ := works.own _ (Array.getElem?_eq_getElem inside)
    obtain rfl := Option.some.inj (foundH.symm.trans found)
    obtain ⟨place, spot, index, held⟩ := filled k _ (Array.getElem?_eq_getElem inside)
    exact ⟨place, spot, index, held.mono grows⟩
  · exact filled k g ((works.frame k same).symm.trans found)

/-- A statement that is entered for the first time gets facts behind all others, which are those of
its place. -/
theorem enter (filled : Filled places p) (listed : Place.Listed places ⟨i, around, n⟩)
    (size : i ≤ p.facts.size) : Filled places (p.enter (around.map Prod.fst) i n) := by
  by_cases again : i < p.facts.size
  · exact (filled.works (works_enter _ n again) size).1
  · have next : i = p.facts.size := by omega
    have fresh : ∃ f, (p.enter (around.map Prod.fst) i n).facts = p.facts.push f ∧
    (Place.mk i around n).Held f := by
      rw [Progress.enter, if_neg again]
      cases around with
      | none => exact ⟨_, rfl, rfl, rfl, rfl, rfl⟩
      | some outer =>
        obtain ⟨k, m⟩ := outer
        obtain ⟨before, outer, spot, rfl⟩ := listed.rooted k m rfl
        have found := Array.getElem?_eq_getElem (Nat.lt_of_lt_of_le before size)
        obtain ⟨place, spot', index, held⟩ := filled k _ found
        obtain rfl := Option.some.inj (spot.symm.trans spot')
        refine ⟨(StatementFacts.fresh i n (some k) p.state).dependOn .control p.facts[k]
          none, by simp [found], ?_⟩
        rw [StatementFacts.dependOn, if_neg (by rw [held.index, index]; exact Nat.ne_of_lt before)]
        refine ⟨rfl, rfl, rfl, ?_⟩
        rw [← held.node]
        rfl
    obtain ⟨f, facts, held⟩ := fresh
    intro k g found
    rw [facts, Array.getElem?_push] at found
    split at found
    · rename_i last
      obtain rfl := Option.some.inj found
      obtain rfl := last.trans next.symm
      exact ⟨_, listed.spot, rfl, held⟩
    · exact filled k g found

end Filled

/-- Each entry is filled with facts of the statement at its place. -/
def PlanInvariant.fills (places : List Place) : PlanInvariant where
  ready _ a _ p := Filled places p ∧ a ≤ p.facts.size
  fits _ _ := True
  leads _ _ b _ _ q := Filled places q ∧ b ≤ q.facts.size

/-- The statement has a place among those listed. -/
def Standable (places : List Place) (own : Option Nat) (i : Nat) (n : Node) : Prop :=
  ∃ around, own = around.map Prod.fst ∧ Place.Listed places ⟨i, around, n⟩

theorem PlanInvariant.kept_fills (env : Env) :
    (PlanInvariant.fills places).Kept env (Standable places) (fun _ => True) where
  merge _ _ := trivial
  state _ := trivial
  head _ _ := trivial
  jumps _ _ _ _ := trivial
  ends _ := trivial
  mono _ _ := trivial
  less ready _ := ready
  next leads _ _ := leads
  again leads le _ := ⟨leads.1, Nat.le_trans le leads.2⟩
  resume ready _ := ready
  aside ready := ready
  nothing ready := ready
  append _ leads _ _ := leads
  twice _ leads := leads
  resumed leads _ := leads
  of_resume leads := leads
  settled _ leads _ := leads
  act _ ready := ready.1.works (Progress.works_act ..) ready.2
  enter {_ _ _ n _ _} good _ _ ready := by
    obtain ⟨around, rfl, listed⟩ := good
    exact ⟨ready.1.enter listed ready.2, le_size_enter _ n ready.2⟩
  leave _ _ _ leads _ := leads.1.works (Progress.works_leave ..) leads.2
  flat {_ _ i n p} good _ _ ready := by
    obtain ⟨around, rfl, listed⟩ := good
    exact (ready.1.enter listed ready.2).works ((Progress.works_perform env i n _).trans
      (Progress.works_leave i n p.state _)) (le_size_enter _ n ready.2)

theorem listed_blockPlaces {code : List Node} (among : place ∈ blockPlaces none 0 code) :
    place.Listed (blockPlaces none 0 code) := by
  have spot : ∀ place ∈ blockPlaces none 0 code, (blockPlaces none 0 code)[place.index]? =
      some place := by
    intro place among
    obtain ⟨k, found⟩ := mem_iff_getElem?.mp among
    rwa [index_of_getElem? found]
  refine ⟨spot place among, fun k m around => ?_⟩
  cases nested_blockPlaces none 0 code place among with
  | top none => exact nomatch none.symm.trans around
  | inside listed parent _ within =>
    obtain ⟨rfl, rfl⟩ := Prod.mk.inj (Option.some.inj (parent.symm.trans around))
    exact ⟨within.1, _, spot _ listed, rfl⟩

/-- A block that is analysed has its places filled, one behind the other. -/
theorem filled_visitBlock {env : Env} (allowed : 0 < env.passes) {code : List Node}
    (plain : ∀ c ∈ code, c.ModuleFree) (s : State) :
    Filled (blockPlaces none 0 code) (visitBlock env none 0 code (.start s)) ∧
      (visitBlock env none 0 code (.start s)).facts.size = blockExtent code := by
  have all : Goods (Standable (blockPlaces none 0 code)) (blockPlaces none 0 code) :=
    fun place among => ⟨_, rfl, listed_blockPlaces among⟩
  have lies : (blockPlan none 0 code).Lies _ (fun _ => True) none 0 (0 + blockExtent code) :=
    standing_blockPlan
      (fun c member => standing (fun _ _ _ _ _ _ => trivial) c (plain c member)) all
  have filled := (PlanInvariant.kept_fills env).run (p := .start s) allowed lies
    ⟨fun k f found => by simp [Progress.start] at found, Nat.zero_le _⟩
  rw [← visitBlock_eq_plan, Nat.zero_add] at filled
  refine ⟨filled.1.1, Nat.le_antisymm (Nat.le_of_not_lt fun more => ?_) filled.1.2⟩
  obtain ⟨place, spot, _⟩ := filled.1.1 _ _ (Array.getElem?_eq_getElem more)
  rw [getElem?_eq_none (Nat.le_of_eq (length_blockPlaces ..))] at spot
  exact absurd spot.symm (Option.some_ne_none _)

section Results

variable (settings : Settings) (writes : GlobalWrites) {code : List Node}
  (plain : ∀ c ∈ code, c.ModuleFree)

include plain

theorem size_analyzeBlock : (analyzeBlock settings writes code).statements.size =
    blockExtent code := by
  have allowed : 0 < (Env.ofModule settings writes code).passes := passLimit_pos _ _ _
  exact (filled_visitBlock allowed plain ∅).2

/-- All facts of an analysis are those of a place. -/
theorem exists_place (found : (analyzeBlock settings writes code).statements[k]? = some f) :
    ∃ place, (blockPlaces none 0 code)[k]? = some place ∧ place.Held f := by
  have allowed : 0 < (Env.ofModule settings writes code).passes := passLimit_pos _ _ _
  obtain ⟨place, spot, _, held⟩ := (filled_visitBlock allowed plain ∅).1 k f found
  exact ⟨place, spot, held⟩

theorem held_analyzeBlock (found : (blockPlaces none 0 code)[i]? = some place) :
    ∃ f, (analyzeBlock settings writes code).statements[i]? = some f ∧ place.Held f := by
  have inside : i < (analyzeBlock settings writes code).statements.size := by
    rw [size_analyzeBlock settings writes plain, ← length_blockPlaces none 0 code]
    exact (List.getElem?_eq_some_iff.mp found).1
  obtain ⟨other, spot, held⟩ := exists_place settings writes plain
    (Array.getElem?_eq_getElem inside)
  obtain rfl := Option.some.inj (found.symm.trans spot)
  exact ⟨_, Array.getElem?_eq_getElem inside, held⟩

end Results

end Lineage.Flow
