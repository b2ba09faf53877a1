import EscapePlan.Proofs.Flow.Shape
import EscapePlan.Proofs.Placement.Replacement

/-!
# Several objects of one site

A site in a loop makes a new object in every round, and all of them share what the site is given: one
stack slot, or one local variable for each field.  So no object may be accessed once a later one has
been made.

Here the occurrences of a scope are executed in any order and any number of times, so whatever holds
of all executions holds along every path.  Objects of a site that is not placed on the heap are held
by variables of the scope only.  An object that is accessed is the latest one of its site on every
execution on which no variable but the one that is assigned holds an object of the site when the site
makes another; a copy that is kept from one round of a loop to the next breaks this.
-/

namespace EscapePlan

/-- One of the objects that a site makes, counted in the order in which they are made. -/
structure Instance where
  site : Site
  number : Nat
  deriving DecidableEq, Repr

/-- What the execution of a scope has come to: how many objects the sites have made, which objects
the variables hold, and which have been handed on. -/
structure Instances where
  made : Site → Nat
  held : StrId → Option Instance
  handed : List Instance

namespace Instances

/-- Where a scope begins. -/
def empty : Instances :=
  ⟨fun _ => 0, fun _ => none, []⟩

/-- The latest object of a site. -/
def latest (memory : Instances) (site : Site) : Instance :=
  ⟨site, memory.made site⟩

/-- A site makes another object. -/
def make (memory : Instances) (site : Site) : Instances :=
  { memory with made := fun other => if other = site then memory.made site + 1 else memory.made other }

/-- A variable is given an object, or something else. -/
def give (memory : Instances) (name : StrId) (object : Option Instance) : Instances :=
  { memory with held := fun other => if other = name then object else memory.held other }

/-- A site makes another object for a variable. -/
def renew (memory : Instances) (name : StrId) (site : Site) : Instances :=
  (memory.make site).give name (some ((memory.make site).latest site))

/-- An object is handed on. -/
def hand (memory : Instances) (object : Instance) : Instances :=
  { memory with handed := object :: memory.handed }

/-- No other variable holds an object of a site. -/
def Alone (memory : Instances) (name : StrId) (site : Site) : Prop :=
  ∀ other object, memory.held other = some object → object.site = site → other = name

/-- Nothing has been handed on but what is said to escape, and variables hold nothing else but what
they may denote. -/
structure Tracks (tree : Tree) (scope : Nat) (memory : Instances) : Prop where
  handed : ∀ object ∈ memory.handed, tree.MayEscape (fun _ _ => False) object.site
  held : ∀ name object, memory.held name = some object →
    tree.MayEscape (fun _ _ => False) object.site ∨
      tree.MayDenote (fun _ _ => False) (.named ⟨scope, name⟩) object.site

/-- The objects of a site that variables hold are the latest one. -/
def HoldsLatest (site : Site) (memory : Instances) : Prop :=
  ∀ name number, memory.held name = some ⟨site, number⟩ → number = memory.made site

end Instances

namespace Tree

section

-- Which sites may make an object for which variable, given what has been come to.
variable (permits : Instances → StrId → Site → Prop) (tree : Tree)

/-- The execution of an occurrence.  What is neither made nor held by a variable may be anything
that has been handed on. -/
inductive Proceeds (memory : Instances) : Place → Instances → Prop where
  | fresh {place : Place} {target value : NodeIndex} {name : StrId} {site : Site} :
      tree.dataAt? place = some (.assignment target value) →
      tree.data? target = some (.var name) →
      tree.Yields (fun _ _ => False) (place.value value) (.site site) →
      permits memory name site →
      Proceeds memory place (memory.renew name site)
  | copied {place : Place} {target value : NodeIndex} {name other : StrId} :
      tree.dataAt? place = some (.assignment target value) →
      tree.data? target = some (.var name) →
      tree.Yields (fun _ _ => False) (place.value value) (.named ⟨place.scope, other⟩) →
      Proceeds memory place (memory.give name (memory.held other))
  | received {place : Place} {target value : NodeIndex} {name : StrId} {object : Option Instance} :
      tree.dataAt? place = some (.assignment target value) →
      tree.data? target = some (.var name) →
      (∀ source, ¬ tree.Yields (fun _ _ => False) (place.value value) source) →
      (∀ given ∈ object, given ∈ memory.handed) → Proceeds memory place (memory.give name object)
  | element {place : Place} {iterable body : NodeIndex} {key : Option StrId} {value name : StrId}
      {object : Option Instance} :
      tree.dataAt? place = some (.foreachStmt iterable key value body) →
      name ∈ key.toList ++ [value] → (∀ given ∈ object, given ∈ memory.handed) →
      Proceeds memory place (memory.give name object)
  | handedOn {place : Place} {name : StrId} {object : Instance} :
      tree.Exposes (fun _ _ => False) place (.named ⟨place.scope, name⟩) →
      memory.held name = some object → Proceeds memory place (memory.hand object)
  | handedNew {place : Place} {site : Site} :
      tree.Exposes (fun _ _ => False) place (.site site) →
      Proceeds memory place ((memory.make site).hand ((memory.make site).latest site))

/-- What the execution of occurrences of a scope may come to. -/
inductive ComesTo (scope : Nat) : Instances → Prop where
  | start : ComesTo scope .empty
  | step {memory later : Instances} {place : Place} :
      ComesTo scope memory → tree.Occurs place → place.scope = scope →
      Proceeds permits tree memory place later → ComesTo scope later

end

end Tree

namespace Instances

open EscapePlan.Tree

variable {permits : Instances → StrId → Site → Prop} {tree : Tree} {scope : Nat}
  {memory later : Instances} {place : Place} {site : Site} {name : StrId} {object : Option Instance}

theorem held_give (other : StrId) :
    (memory.give name object).held other = if other = name then object else memory.held other :=
  rfl

theorem made_make_of_ne {other : Site} (different : other ≠ site) :
    (memory.make site).made other = memory.made other :=
  if_neg different

theorem Tracks.give (tracks : Tracks tree scope memory)
    (known : ∀ given ∈ object, tree.MayEscape (fun _ _ => False) given.site ∨
      tree.MayDenote (fun _ _ => False) (.named ⟨scope, name⟩) given.site) :
    Tracks tree scope (memory.give name object) where
  handed := tracks.handed
  held other given heldEq := by
    rw [held_give] at heldEq
    split at heldEq
    next same =>
      subst same
      exact known given heldEq
    next => exact tracks.held other given heldEq

/-- Every execution of an occurrence keeps track of objects. -/
theorem Tracks.proceeds (tracks : Tracks tree scope memory) (occurs : tree.Occurs place)
    (scopeEq : place.scope = scope) (proceeds : tree.Proceeds permits memory place later) :
    Tracks tree scope later := by
  subst scopeEq
  have made (site : Site) : Tracks tree place.scope (memory.make site) := ⟨tracks.handed, tracks.held⟩
  cases proceeds with
  | @fresh _ _ _ site dataEq targetEq yields _ =>
      refine (made site).give ?_
      rintro _ ⟨rfl⟩
      exact .inr (.flow occurs (.assigned dataEq targetEq id yields) (.site site))
  | @copied _ _ _ other dataEq targetEq yields =>
      refine tracks.give fun given heldEq => (tracks.held other given heldEq).imp_right ?_
      exact fun mayDenote => .flow occurs (.assigned dataEq targetEq id yields) mayDenote
  | received _ _ _ known => exact tracks.give fun given member => .inl (tracks.handed _ (known _ member))
  | element _ _ known => exact tracks.give fun given member => .inl (tracks.handed _ (known _ member))
  | @handedOn name object exposes heldEq =>
      refine ⟨List.forall_mem_cons.2 ⟨?_, tracks.handed⟩, tracks.held⟩
      rcases tracks.held name object heldEq with escapes | mayDenote
      · exact escapes
      · exact ⟨_, ⟨place, occurs, exposes⟩, mayDenote⟩
  | @handedNew site exposes =>
      refine ⟨List.forall_mem_cons.2 ⟨?_, tracks.handed⟩, tracks.held⟩
      exact ⟨_, ⟨place, occurs, exposes⟩, .site site⟩

theorem tracks_of_comesTo (comesTo : tree.ComesTo permits scope memory) :
    Tracks tree scope memory := by
  induction comesTo with
  | start => exact ⟨fun _ member => absurd member List.not_mem_nil, fun _ _ heldEq => nomatch heldEq⟩
  | step _ occurs scopeEq proceeds inductionHypothesis =>
      exact inductionHypothesis.proceeds occurs scopeEq proceeds

theorem Alone.renew (alone : memory.Alone name site) : (memory.renew name site).Alone name site := by
  intro other object heldEq siteEq
  rw [Instances.renew, held_give] at heldEq
  split at heldEq
  next same => exact same
  next => exact alone other object heldEq siteEq

theorem HoldsLatest.give (latest : HoldsLatest site memory)
    (known : ∀ number, object = some ⟨site, number⟩ → number = memory.made site) :
    HoldsLatest site (memory.give name object) := by
  intro other number heldEq
  rw [held_give] at heldEq
  split at heldEq
  next => exact known number heldEq
  next => exact latest other number heldEq

/-- Objects of other sites do not matter. -/
theorem HoldsLatest.make (latest : HoldsLatest site memory) {other : Site} (different : other ≠ site) :
    HoldsLatest site (memory.make other) := by
  intro name number heldEq
  rw [made_make_of_ne different.symm]
  exact latest name number heldEq

/-- A site whose objects do not escape goes on being held by its latest object, if no variable but
the one that is assigned holds one when it makes another. -/
theorem HoldsLatest.proceeds (latest : HoldsLatest site memory) (tracks : Tracks tree scope memory)
    (confined : ¬ tree.MayEscape (fun _ _ => False) site)
    (alone : ∀ name, permits memory name site → memory.Alone name site)
    (occurs : tree.Occurs place) (proceeds : tree.Proceeds permits memory place later) :
    HoldsLatest site later := by
  have foreign {object : Option Instance} (known : ∀ given ∈ object, given ∈ memory.handed)
      (number : Nat) (objectEq : object = some ⟨site, number⟩) : number = memory.made site :=
    absurd (tracks.handed _ (known ⟨site, number⟩ objectEq)) confined
  cases proceeds with
  | @fresh _ _ name made _ _ _ permitted =>
      by_cases same : made = site
      · subst same
        intro other number heldEq
        rw [renew, held_give] at heldEq
        split at heldEq
        next =>
          cases heldEq
          rfl
        next different => exact absurd (alone name permitted other _ heldEq rfl) different
      · refine (latest.make same).give fun number objectEq => ?_
        cases objectEq
        exact absurd rfl same
  | @copied _ _ _ other => exact latest.give fun number heldEq => latest other number heldEq
  | received _ _ _ known => exact latest.give (foreign known)
  | element _ _ known => exact latest.give (foreign known)
  | handedOn => exact latest
  | @handedNew made exposes =>
      have different : made ≠ site := by
        rintro rfl
        exact confined ⟨_, ⟨place, occurs, exposes⟩, .site made⟩
      exact latest.make different

theorem holdsLatest_of_comesTo (confined : ¬ tree.MayEscape (fun _ _ => False) site)
    (alone : ∀ memory name, permits memory name site → memory.Alone name site)
    (comesTo : tree.ComesTo permits scope memory) : HoldsLatest site memory := by
  induction comesTo with
  | start => exact fun _ _ heldEq => nomatch heldEq
  | step earlier occurs _ proceeds inductionHypothesis =>
      exact inductionHypothesis.proceeds (tracks_of_comesTo earlier) confined (alone _) occurs
        proceeds

end Instances

namespace Placement

/-- Wherever the objects of a site are placed but on the heap, a variable that is accessed holds the
latest of them, on every execution on which no variable but the one that is assigned holds one when
the site makes another.  The condition is not needed if nothing lies above what is unknown, since
then what is accessed goes to the heap. -/
theorem latest_of_placed (config : Config) {tree : Tree} (noGlobal : tree.NoGlobal) {site : Site}
    {location : Location} (placed : siteLocation? config tree site = some location)
    (elsewhere : location ≠ .heap) {scope : Nat} {memory : Instances}
    (comesTo : tree.ComesTo (fun memory name made => made = site → config.unknownIsBottom = true →
      memory.Alone name site) scope memory)
    {place base : Place} {field : Option String} {name : StrId} {number : Nat}
    (occurs : tree.Occurs place) (scopeEq : place.scope = scope)
    (accesses : tree.Accesses place base field) (reads : tree.dataAt? base = some (.var name))
    (held : memory.held name = some ⟨site, number⟩) : number = memory.made site := by
  obtain ⟨record, -, found, -⟩ := exists_of_siteLocation? placed
  have noEscape := noEscape_of_siteLocation? found placed elsewhere
  have confined : ¬ tree.MayEscape (fun _ _ => False) site :=
    not_mayEscape_of_noEscape noGlobal found noEscape
  cases above : config.unknownIsBottom with
  | true =>
      have alone : ∀ (memory : Instances) (name : StrId),
          (site = site → config.unknownIsBottom = true → memory.Alone name site) →
            memory.Alone name site := fun _ _ permitted => permitted rfl above
      exact Instances.holdsLatest_of_comesTo confined alone comesTo name number held
  | false =>
      have accounts := walk_accounts config tree
      have mayDenote := ((Instances.tracks_of_comesTo comesTo).held name _ held).resolve_left confined
      have baseScope : base.scope = scope := by
        cases accesses with
        | load => exact scopeEq
        | store => exact scopeEq
        | iterate => exact scopeEq
      have mayYield : tree.MayYield base site :=
        ⟨_, .named reads id, baseScope.symm ▸ mayDenote⟩
      have touches := noGlobal.touches_iff.2 ⟨place, base, occurs, accesses, mayYield⟩
      exact absurd noEscape (Analysis.not_noEscape_of_touches accounts found above touches)

/-- A loop makes an object in every round and reads a field of it. -/
def freshRounds : Tree where
  root := ⟨0⟩
  strings := .ofList ["spin", "again", "fresh", "Point", "x"]
  nodes := #[⟨.root [⟨1⟩], none⟩, ⟨.functionDecl ⟨0⟩ [⟨1⟩] ⟨2⟩, none⟩, ⟨.block [⟨3⟩], none⟩,
    ⟨.whileStmt ⟨4⟩ ⟨5⟩, none⟩, ⟨.var ⟨1⟩, none⟩, ⟨.block [⟨6⟩, ⟨9⟩], none⟩,
    ⟨.assignment ⟨7⟩ ⟨8⟩, none⟩, ⟨.var ⟨2⟩, none⟩, ⟨.objectInstantiation ⟨3⟩ [], none⟩,
    ⟨.propertyAccess ⟨7⟩ ⟨4⟩, none⟩]

theorem latest_of_placed_freshRounds :
    freshRounds.NoGlobal ∧ siteLocation? {} freshRounds ⟨0, ⟨8⟩⟩ = some .scalarReplaced ∧
      ((Instances.empty.renew ⟨2⟩ ⟨0, ⟨8⟩⟩).renew ⟨2⟩ ⟨0, ⟨8⟩⟩).held ⟨2⟩ =
        some ⟨⟨0, ⟨8⟩⟩, 2⟩ ∧
      2 = ((Instances.empty.renew ⟨2⟩ ⟨0, ⟨8⟩⟩).renew ⟨2⟩ ⟨0, ⟨8⟩⟩).made ⟨0, ⟨8⟩⟩ := by
  have noGlobal : freshRounds.NoGlobal := by
    apply Tree.noGlobal_of_nodes
    simp [freshRounds]
  have replaced : siteLocation? {} freshRounds ⟨0, ⟨8⟩⟩ = some .scalarReplaced := by cbv
  have given : freshRounds.Occurs ⟨507, 1, ⟨1, 0, []⟩, ⟨6⟩⟩ :=
    .visit ⟨_, rfl, .here⟩ (.enter ⟨_, rfl, .here⟩ (.visit ⟨_, rfl, .here⟩
      (.visit ⟨_, rfl, .later .here⟩ (.visit ⟨_, rfl, .here⟩ (.refl _)))))
  have read : freshRounds.Occurs ⟨507, 1, ⟨1, 1, []⟩, ⟨9⟩⟩ :=
    .visit ⟨_, rfl, .here⟩ (.enter ⟨_, rfl, .here⟩ (.visit ⟨_, rfl, .here⟩
      (.visit ⟨_, rfl, .later .here⟩ (.visit ⟨_, rfl, .later .here⟩ (.refl _)))))
  have first : Instances.empty.Alone ⟨2⟩ ⟨0, ⟨8⟩⟩ := fun _ _ heldEq =>
    absurd heldEq.symm (Option.some_ne_none _)
  have once : freshRounds.ComesTo (fun memory name made => made = ⟨0, ⟨8⟩⟩ → true = true →
      memory.Alone name ⟨0, ⟨8⟩⟩) 1 _ :=
    .step .start given rfl (.fresh rfl rfl (.site ⟨_, rfl, .here⟩) fun _ _ => first)
  have twice := once.step given rfl
    (.fresh rfl rfl (.site ⟨_, rfl, .here⟩) fun _ _ => first.renew)
  have accesses : freshRounds.Accesses ⟨507, 1, ⟨1, 1, []⟩, ⟨9⟩⟩ ⟨506, 1, ⟨1, 1, []⟩, ⟨7⟩⟩
      (some "x") := .load rfl rfl
  have held : ((Instances.empty.renew ⟨2⟩ ⟨0, ⟨8⟩⟩).renew ⟨2⟩ ⟨0, ⟨8⟩⟩).held ⟨2⟩ =
      some ⟨⟨0, ⟨8⟩⟩, 2⟩ := rfl
  have elsewhere : Location.scalarReplaced ≠ .heap := by decide
  have latest := latest_of_placed {} noGlobal replaced elsewhere twice read rfl accesses rfl held
  exact ⟨noGlobal, replaced, held, latest⟩

/-- A loop makes an object in every round and reads a field of the one of the round before, which
another variable has taken over. -/
def staleCopy : Tree where
  root := ⟨0⟩
  strings := .ofList ["spin", "again", "fresh", "Point", "last", "x"]
  nodes := #[⟨.root [⟨1⟩], none⟩, ⟨.functionDecl ⟨0⟩ [⟨1⟩] ⟨2⟩, none⟩, ⟨.block [⟨3⟩], none⟩,
    ⟨.whileStmt ⟨4⟩ ⟨5⟩, none⟩, ⟨.var ⟨1⟩, none⟩, ⟨.block [⟨6⟩, ⟨9⟩, ⟨11⟩], none⟩,
    ⟨.assignment ⟨7⟩ ⟨8⟩, none⟩, ⟨.var ⟨2⟩, none⟩, ⟨.objectInstantiation ⟨3⟩ [], none⟩,
    ⟨.propertyAccess ⟨10⟩ ⟨5⟩, none⟩, ⟨.var ⟨4⟩, none⟩, ⟨.assignment ⟨10⟩ ⟨7⟩, none⟩]

/-- An object that is placed elsewhere than on the heap may be accessed after its site has made
another one. -/
theorem stale_of_placed :
    Path (Walk.ofTree {} staleCopy depthLimit).graph.flow.Edge 1 [3, 2, 3, 2, 1] ∧
      staleCopy.NoGlobal ∧ siteLocation? {} staleCopy ⟨0, ⟨8⟩⟩ = some .scalarReplaced ∧
      staleCopy.Occurs ⟨507, 1, ⟨1, 1, []⟩, ⟨9⟩⟩ ∧
      staleCopy.Accesses ⟨507, 1, ⟨1, 1, []⟩, ⟨9⟩⟩ ⟨506, 1, ⟨1, 1, []⟩, ⟨10⟩⟩ (some "x") ∧
      staleCopy.dataAt? ⟨506, 1, ⟨1, 1, []⟩, ⟨10⟩⟩ = some (.var ⟨4⟩) ∧
      ∃ memory : Instances, staleCopy.ComesTo (fun _ _ _ => True) 1 memory ∧
        memory.held ⟨4⟩ = some ⟨⟨0, ⟨8⟩⟩, 1⟩ ∧ memory.made ⟨0, ⟨8⟩⟩ = 2 := by
  have enters : (Walk.ofTree {} staleCopy depthLimit).graph.flow.Edge 1 2 :=
    of_decide_eq_true (by cbv)
  have begins : (Walk.ofTree {} staleCopy depthLimit).graph.flow.Edge 2 3 :=
    of_decide_eq_true (by cbv)
  have repeats : (Walk.ofTree {} staleCopy depthLimit).graph.flow.Edge 3 2 :=
    of_decide_eq_true (by cbv)
  have rounds := (((Path.start.step enters).step begins).step repeats).step begins
  have noGlobal : staleCopy.NoGlobal := by
    apply Tree.noGlobal_of_nodes
    simp [staleCopy]
  have given : staleCopy.Occurs ⟨507, 1, ⟨1, 0, []⟩, ⟨6⟩⟩ :=
    .visit ⟨_, rfl, .here⟩ (.enter ⟨_, rfl, .here⟩ (.visit ⟨_, rfl, .here⟩
      (.visit ⟨_, rfl, .later .here⟩ (.visit ⟨_, rfl, .here⟩ (.refl _)))))
  have read : staleCopy.Occurs ⟨507, 1, ⟨1, 1, []⟩, ⟨9⟩⟩ :=
    .visit ⟨_, rfl, .here⟩ (.enter ⟨_, rfl, .here⟩ (.visit ⟨_, rfl, .here⟩
      (.visit ⟨_, rfl, .later .here⟩ (.visit ⟨_, rfl, .later .here⟩ (.refl _)))))
  have copied : staleCopy.Occurs ⟨507, 1, ⟨1, 1, []⟩, ⟨11⟩⟩ :=
    .visit ⟨_, rfl, .here⟩ (.enter ⟨_, rfl, .here⟩ (.visit ⟨_, rfl, .here⟩
      (.visit ⟨_, rfl, .later .here⟩ (.visit ⟨_, rfl, .later (.later .here)⟩ (.refl _)))))
  have made : staleCopy.ComesTo (fun _ _ _ => True) 1 _ :=
    .step .start given rfl (.fresh rfl rfl (.site ⟨_, rfl, .here⟩) trivial)
  have kept := made.step copied rfl (.copied rfl rfl (.named rfl id))
  have remade := kept.step given rfl (.fresh rfl rfl (.site ⟨_, rfl, .here⟩) trivial)
  exact ⟨rounds, noGlobal, by cbv, read, .load rfl rfl, rfl, _, remade, rfl, rfl⟩

end Placement

end EscapePlan
