import Mathlib
import EscapePlan.Proofs.Analysis.Depth
import EscapePlan.Proofs.Analysis.Soundness

/-!
# What the limit of the depth hides

What is exposed of the objects of a site shows in the scope that makes them: an object gets into
another scope through a closure that captures its variable, and being captured exposes it.  So if
the scope is cut off nowhere, whatever lets the objects out in an evaluation of the whole tree is
met below the limit as well; and if it is cut off, everything that it makes counts as escaping.
-/

namespace EscapePlan

namespace Tree

variable {tree : Tree}

/-! ## Expressions of twins -/

theorem performsAt_value {place : Place} {target value : NodeIndex}
    (dataEq : tree.dataAt? place = some (.assignment target value)) :
    tree.PerformsAt place 0 (.visit value) place.progress :=
  ⟨_, dataEq, rfl, rfl⟩

theorem Twins.value {one other : Place} (twins : tree.Twins one other) {target value : NodeIndex}
    (dataEq : tree.dataAt? one = some (.assignment target value)) :
    tree.Twins (one.value value) (other.value value) :=
  twins.visit (performsAt_value dataEq) twins.globals_eq

/-- The same names are global after twins. -/
theorem Twins.isGlobal_iff {one other : Place} (twins : tree.Twins one other) {name : StrId} :
    (tree.progressAfter one).IsGlobal name ↔ (tree.progressAfter other).IsGlobal name := by
  rw [Progress.IsGlobal, Progress.IsGlobal, twins.after]

/-- Expressions of twins come from variables of the same names. -/
theorem Twins.yields {one other : Place} (twins : tree.Twins one other) {key : VarKey}
    (yields : tree.Yields Progress.IsGlobal one (.named key)) :
    tree.Yields Progress.IsGlobal other (.named ⟨other.scope, key.name⟩) := by
  cases yields with
  | named dataEq undeclared =>
      rw [Progress.IsGlobal, twins.globals_eq] at undeclared
      exact .named (twins.dataAt?_eq ▸ dataEq) undeclared
  | assigned dataEq targetEq undeclared =>
      rw [(twins.value dataEq).isGlobal_iff] at undeclared
      exact .assigned (twins.dataAt?_eq ▸ dataEq) targetEq undeclared

/-- The variables that an expression comes from are those of its scope. -/
theorem Yields.scope_eq {isGlobal : StrId → Progress → Prop} {place : Place} {key : VarKey}
    (yields : tree.Yields isGlobal place (.named key)) : place.scope = key.scope := by
  cases yields with
  | named => rfl
  | assigned => rfl

theorem Yields.exists_made {isGlobal : StrId → Progress → Prop} {place : Place} {site : Site}
    (yields : tree.Yields isGlobal place (.site site)) :
    ∃ progress, tree.Performs place .allocate progress ∧ site = ⟨progress.sites, place.index⟩ := by
  cases yields with
  | site performs => exact ⟨_, performs, rfl⟩

theorem Below.visitLast {top place : Place} {child : NodeIndex} {progress : Progress}
    (below : tree.Below top place) (performs : tree.Performs place (.visit child) progress) :
    tree.Below top (place.child progress child) := by
  induction below with
  | refl => exact .visit performs (.refl _)
  | visit first _ inductionHypothesis => exact .visit first (inductionHypothesis performs)
  | enter first _ inductionHypothesis => exact .enter first (inductionHypothesis performs)

theorem Spans.visitLast {root place : Place} {path : List Nat} {position : Nat} {child : NodeIndex}
    {progress : Progress} (spans : tree.Spans root path place)
    (performs : tree.PerformsAt place position (.visit child) progress) :
    tree.Spans root (path ++ [position]) (place.child progress child) := by
  induction spans with
  | refl => exact .visit performs (.refl _)
  | visit first _ inductionHypothesis => exact .visit first (inductionHypothesis performs)

/-! ## A site in two evaluations -/

/-- A site that two evaluations of a tree have in common, in a scope that neither cuts off. -/
structure CommonSite (tree : Tree) (top otherTop : Place) where
  /-- The path to where the scope begins. -/
  above : List Nat
  root : Place
  otherRoot : Place
  /-- The path from there to where the site is. -/
  inner : List Nat
  maker : Place
  otherMaker : Place
  made : Progress
  otherMade : Progress
  outermost : top.scope ≤ top.progress.scopes
  opens : tree.Opens top above root
  leads_other : tree.Leads otherTop above otherRoot
  twins : tree.Twins root otherRoot
  spans : tree.Spans root inner maker
  spans_other : tree.Spans otherRoot inner otherMaker
  makes : tree.Performs maker .allocate made
  makes_other : tree.Performs otherMaker .allocate otherMade

namespace CommonSite

variable {top otherTop : Place} (common : CommonSite tree top otherTop)

/-- The site in the first evaluation. -/
def site : Site :=
  ⟨common.made.sites, common.maker.index⟩

/-- The site in the second one. -/
def otherSite : Site :=
  ⟨common.otherMade.sites, common.otherMaker.index⟩

/-- The site and the variables of its scope, in the two evaluations. -/
inductive Matches : Source → Source → Prop where
  | site : Matches (.site common.site) (.site common.otherSite)
  | named (name : StrId) :
      Matches (.named ⟨common.root.scope, name⟩) (.named ⟨common.otherRoot.scope, name⟩)

variable {common} {otherSource : Source}

theorem Matches.of_site {site : Site} (matches_ : common.Matches (.site site) otherSource) :
    site = common.site ∧ otherSource = .site common.otherSite := by
  cases matches_ with
  | site => exact ⟨rfl, rfl⟩

theorem Matches.of_named {key : VarKey} (matches_ : common.Matches (.named key) otherSource) :
    key.scope = common.root.scope ∧ otherSource = .named ⟨common.otherRoot.scope, key.name⟩ := by
  cases matches_ with
  | named name => exact ⟨rfl, rfl⟩

variable (common) in
/-- Two places of the scope correspond to each other. -/
structure Partners (place other : Place) : Prop where
  path : ∃ path, tree.Spans common.root path place ∧ tree.Spans common.otherRoot path other
  twins : tree.Twins place other

variable {place other : Place} {source : Source}

theorem Partners.visit (partners : common.Partners place other) {position : Nat} {child : NodeIndex}
    {progress later : Progress} (performs : tree.PerformsAt place position (.visit child) progress)
    (performsOther : tree.PerformsAt other position (.visit child) later)
    (same : progress.globals = later.globals) :
    common.Partners (place.child progress child) (other.child later child) := by
  rcases partners.path with ⟨path, spans, spansOther⟩
  exact ⟨⟨path ++ [position], spans.visitLast performs, spansOther.visitLast performsOther⟩,
    partners.twins.visit performs same⟩

theorem Partners.value (partners : common.Partners place other) {target value : NodeIndex}
    (dataEq : tree.dataAt? place = some (.assignment target value)) :
    common.Partners (place.value value) (other.value value) :=
  partners.visit (performsAt_value dataEq)
    (performsAt_value (partners.twins.dataAt?_eq ▸ dataEq)) partners.twins.globals_eq

theorem Partners.scope_eq (partners : common.Partners place other) :
    other.scope = common.otherRoot.scope := by
  rcases partners.path with ⟨path, -, spans⟩
  exact spans.scope_eq

theorem Partners.matches_named (partners : common.Partners place other) (name : StrId) :
    common.Matches (.named ⟨place.scope, name⟩) (.named ⟨other.scope, name⟩) := by
  rcases partners.path with ⟨path, spans, spansOther⟩
  rw [spans.scope_eq, spansOther.scope_eq]
  exact .named name

theorem Partners.below (partners : common.Partners place other) : tree.Below otherTop other := by
  rcases partners.path with ⟨path, -, spans⟩
  exact below_iff_leads.2 ⟨_, common.leads_other.append spans.leads⟩

/-- Every place of the scope has a partner. -/
theorem exists_partner (below : tree.Below top place) (inside : place.scope = common.root.scope) :
    ∃ other, common.Partners place other := by
  rcases below_iff_leads.1 below with ⟨path, leads⟩
  rcases common.opens.spans_of_scope_eq common.outermost leads inside with ⟨inner, -, spans⟩
  rcases common.twins.spans spans with ⟨other, spansOther, twins⟩
  exact ⟨other, ⟨inner, spans, spansOther⟩, twins⟩

/-- The site is made at one place. -/
theorem eq_maker (below : tree.Below top place) {progress : Progress}
    (performs : tree.Performs place .allocate progress) (same : progress.sites = common.made.sites) :
    place = common.maker := by
  rcases below_iff_leads.1 below with ⟨path, leads⟩
  have makerLeads := common.opens.leads.append common.spans.leads
  cases leads.maker_unique performs makerLeads common.makes same
  exact leads.unique makerLeads

theorem Partners.eq_otherMaker (partners : common.Partners common.maker other) :
    other = common.otherMaker := by
  rcases partners.path with ⟨path, spans, spansOther⟩
  cases spans.leads.maker_unique common.makes common.spans.leads common.makes rfl
  exact spansOther.leads.unique common.spans_other.leads

/-- Expressions that come from the site or from variables of its scope are in the scope. -/
theorem scope_eq_of_yields (below : tree.Below top place)
    (yields : tree.Yields Progress.IsGlobal place source)
    (matches_ : common.Matches source otherSource) : place.scope = common.root.scope := by
  cases source with
  | site site =>
      rcases yields.exists_made with ⟨progress, performs, rfl⟩
      cases common.eq_maker below performs (congrArg Site.number matches_.of_site.1)
      exact common.spans.scope_eq
  | named key => exact yields.scope_eq.trans matches_.of_named.1

/-- Partners come from the same things. -/
theorem Partners.yields (partners : common.Partners place other) (below : tree.Below top place)
    (yields : tree.Yields Progress.IsGlobal place source)
    (matches_ : common.Matches source otherSource) :
    tree.Yields Progress.IsGlobal other otherSource := by
  cases source with
  -- The number of the site tells its place in one evaluation, and the path to it the other place.
  | site site =>
      rcases yields.exists_made with ⟨progress, performs, rfl⟩
      rcases matches_.of_site with ⟨same, rfl⟩
      cases common.eq_maker below performs (congrArg Site.number same)
      cases partners.eq_otherMaker
      exact .site common.makes_other
  | named key =>
      rw [matches_.of_named.2, ← partners.scope_eq]
      exact partners.twins.yields yields

/-- A variable of the scope that is captured is exposed in both evaluations. -/
theorem exposes_captured {params captures : List StrId} {body : NodeIndex} {name : StrId}
    (below : tree.Below top place) (dataEq : tree.dataAt? place = some (.closure params captures body))
    (member : name ∈ captures) (undeclared : ¬ place.progress.IsGlobal name)
    (matches_ : common.Matches (.named ⟨place.scope, name⟩) otherSource) :
    (Law.ofPlace tree otherTop).exposes otherSource := by
  rcases matches_.of_named with ⟨inside, rfl⟩
  rcases exists_partner below inside with ⟨other, partners⟩
  rw [Progress.IsGlobal, partners.twins.globals_eq] at undeclared
  rw [← partners.scope_eq]
  exact ⟨other, partners.below,
    .captured (partners.twins.dataAt?_eq ▸ dataEq) member undeclared⟩

/-- What is exposed of the site or of a variable of its scope is exposed in both evaluations. -/
theorem exposes (below : tree.Below top place)
    (exposes : tree.Exposes Progress.IsGlobal place source)
    (matches_ : common.Matches source otherSource) :
    (Law.ofPlace tree otherTop).exposes otherSource := by
  cases exposes with
  | operand dataEq exposed performs yields =>
      have belowChild := below.visitLast performs
      have inside := scope_eq_of_yields belowChild yields matches_
      rcases exists_partner below inside with ⟨other, partners⟩
      rcases performs_iff.1 performs with ⟨position, performsAt⟩
      rcases partners.twins.performsAt performsAt with ⟨later, performsOther, same⟩
      have partnersChild := partners.visit performsAt performsOther same
      exact ⟨other, partners.below, .operand (partners.twins.dataAt?_eq ▸ dataEq) exposed
        performsOther.performs (partnersChild.yields belowChild yields matches_)⟩
  | stored dataEq declared yields =>
      have belowValue := below.visitLast (performsAt_value dataEq).performs
      have inside := scope_eq_of_yields belowValue yields matches_
      rcases exists_partner below inside with ⟨other, partners⟩
      have partnersValue := partners.value dataEq
      refine ⟨other, partners.below, .stored (partners.twins.dataAt?_eq ▸ dataEq)
        (fun name targetEq => ?_) (partnersValue.yields belowValue yields matches_)⟩
      exact partnersValue.twins.isGlobal_iff.1 (declared name targetEq)
  | captured dataEq member undeclared =>
      exact exposes_captured below dataEq member undeclared matches_

/-- Where the site or a variable of its scope flows to, it does so in both evaluations, or it is
exposed. -/
theorem flows {key : VarKey} (below : tree.Below top place)
    (flows : tree.Flows Progress.IsGlobal place key source)
    (matches_ : common.Matches source otherSource) :
    (Law.ofPlace tree otherTop).exposes otherSource ∨
      ∃ other, common.Matches (.named key) (.named other) ∧
        (Law.ofPlace tree otherTop).flows other otherSource := by
  cases flows with
  | @assigned target value name source dataEq targetEq undeclared yields =>
      have belowValue := below.visitLast (performsAt_value dataEq).performs
      have inside := scope_eq_of_yields belowValue yields matches_
      rcases exists_partner below inside with ⟨other, partners⟩
      have partnersValue := partners.value dataEq
      rw [partnersValue.twins.isGlobal_iff] at undeclared
      exact .inr ⟨⟨other.scope, name⟩, partners.matches_named name, other, partners.below,
        .assigned (partners.twins.dataAt?_eq ▸ dataEq) targetEq undeclared
          (partnersValue.yields belowValue yields matches_)⟩
  | captured dataEq member undeclared =>
      exact .inl (exposes_captured below dataEq member undeclared matches_)

/-- What denotes the objects of the site corresponds to something that denotes them in the other
evaluation, unless they are let out there. -/
theorem denotes {site : Site} (denotes : (Law.ofPlace tree top).Denotes source site)
    (siteEq : site = common.site) :
    (Law.ofPlace tree otherTop).LetsOut common.otherSite ∨
      ∃ other, common.Matches source other ∧
        (Law.ofPlace tree otherTop).Denotes other common.otherSite := by
  induction denotes with
  | site site =>
      cases siteEq
      exact .inr ⟨_, .site, .site _⟩
  | flow allowed _ inductionHypothesis =>
      rcases allowed with ⟨place, below, flows⟩
      rcases inductionHypothesis siteEq with letsOut | ⟨other, matches_, denotesOther⟩
      · exact .inl letsOut
      -- A flow stays in the scope, or it is a capture, by which the objects are let out.
      · rcases common.flows below flows matches_ with exposed | ⟨key, matchesKey, flowsOther⟩
        · exact .inl ⟨other, exposed, denotesOther⟩
        · exact .inr ⟨_, matchesKey, .flow flowsOther denotesOther⟩

/-- What lets the objects of the site out does so in both evaluations. -/
theorem letsOut (common : CommonSite tree top otherTop)
    (letsOut : (Law.ofPlace tree top).LetsOut common.site) :
    (Law.ofPlace tree otherTop).LetsOut common.otherSite := by
  rcases letsOut with ⟨source, ⟨place, below, exposes⟩, denotes⟩
  rcases common.denotes denotes rfl with letsOut | ⟨other, matches_, denotesOther⟩
  · exact letsOut
  · exact ⟨other, common.exposes below exposes matches_, denotesOther⟩

/-- A site that the same path leads to in two evaluations is common to them if its scope is cut off
in neither. -/
theorem exists_of_leads {few many : Nat} {path : List Nat} {lower upper : Place}
    {made full : Progress} (leads : tree.Leads (tree.startAt few) path lower)
    (leadsFull : tree.Leads (tree.startAt many) path upper)
    (makes : tree.Performs lower .allocate made) (makesFull : tree.Performs upper .allocate full)
    (fits : tree.Fits many tree.root)
    (uncut : ∀ place, tree.Below (tree.startAt few) place → place.scope = lower.scope →
      place.levels = 0 → tree.data? place.index = none) :
    ∃ common : CommonSite tree (tree.startAt many) (tree.startAt few),
      common.site = ⟨full.sites, upper.index⟩ ∧ common.otherSite = ⟨made.sites, lower.index⟩ := by
  rcases leadsFull.exists_opens with ⟨above, inner, root, rfl, opens, spans⟩
  rcases leads.split with ⟨otherRoot, aboveOther, innerOther⟩
  have indexEq := opens.leads.index_eq aboveOther rfl
  have spansOther := spans.transfer innerOther indexEq
  have globalsOther := (opens.transfer aboveOther rfl).globals_eq rfl
  have intactOther : tree.Intact otherRoot.levels otherRoot.index := by
    apply intact_of_spans
    intro path place spansPlace
    apply uncut place (below_iff_leads.2 ⟨_, aboveOther.append spansPlace.leads⟩)
    rw [spansPlace.scope_eq, spansOther.scope_eq]
  have fitsRoot := Fits.leads opens.leads fits
  have twins : tree.Twins root otherRoot :=
    ⟨indexEq, (opens.globals_eq rfl).trans globalsOther.symm, fitsRoot.intact, intactOther⟩
  exact ⟨⟨above, root, otherRoot, inner, upper, lower, full, made, Nat.le_refl _, opens, aboveOther,
    twins, spans, spansOther, makesFull, makes⟩, rfl, rfl⟩

end CommonSite

end Tree

/-! ## The limit -/

namespace Analysis

/-- The analysis of a tree down to so many levels. -/
def ofTreeAt (config : Config) (tree : Tree) (levels : Nat) : Analysis :=
  ofWalk config (Walk.ofTree config tree levels).settle

theorem ofTreeAt_depthLimit (config : Config) (tree : Tree) :
    ofTreeAt config tree depthLimit = ofTree config tree :=
  rfl

/-- What does not escape below a limit meets no sink in the whole tree.  If the analysis down to
few levels finds that the objects of a site do not escape, then the walk over a number of levels
that holds the whole tree applies no sink to them.  There is such a number for every tree in which
no node refers to itself, by `Tree.exists_fits`. -/
theorem unsunk_of_noEscape (config : Config) {tree : Tree} {few many : Nat}
    (fits : tree.Fits many tree.root) {path : List Nat} {lower upper : Place} {made full : Progress}
    (leads : tree.Leads (tree.startAt few) path lower)
    (leadsFull : tree.Leads (tree.startAt many) path upper)
    (makes : tree.Performs lower .allocate made) (makesFull : tree.Performs upper .allocate full)
    {record : EscapeRecord}
    (found : (ofTreeAt config tree few).recordOf? ⟨made.sites, lower.index⟩ = some record)
    (noEscape : record.state = .noEscape) :
    ∃ id after, (Walk.ofTree config tree many).Represents id (.site ⟨full.sites, upper.index⟩) ∧
      (∀ sink ∈ (Walk.ofTree config tree many).sinks,
        id ∉ (Walk.ofTree config tree many).resolveAliases.aliases sink.value) ∧
      (Walk.ofTree config tree many).applySinks.records.find? id = some after ∧
      after.state = .noEscape ∧ after.trail = [] := by
  have accounts := Walk.ofTree_accounts config tree few
  have accountsFull := Walk.ofTree_accounts config tree many
  have keeps : ¬ (ofTreeAt config tree few).LetsEscape config.unknownIsBottom
      ⟨made.sites, lower.index⟩ := not_letsEscape_of_noEscape found noEscape
  have below := Tree.below_iff_leads.2 ⟨path, leads⟩
  have uncut : ∀ place, tree.Below (tree.startAt few) place → place.scope = lower.scope →
      place.levels = 0 → tree.data? place.index = none := by
    intro place belowPlace same cut
    by_contra hidden
    exact keeps (accounts.letsEscape_of_cut config below makes belowPlace same cut hidden)
  rcases Tree.CommonSite.exists_of_leads leads leadsFull makes makesFull fits uncut with
    ⟨common, siteEq, otherEq⟩
  rcases (accountsFull.covers upper (Tree.below_iff_leads.2 ⟨path, leadsFull⟩)).sites full makesFull with
    ⟨id, -, represents⟩
  have unsunk : ∀ sink ∈ (Walk.ofTree config tree many).sinks,
      id ∉ (Walk.ofTree config tree many).resolveAliases.aliases sink.value := by
    intro sink noted listed
    have letsOut := accountsFull.letsOut_of_sunk represents noted listed
    rw [← siteEq] at letsOut
    exact keeps (accounts.letsEscape config (otherEq ▸ common.letsOut letsOut))
  have known := accountsFull.sound.known_of_represents represents
  rcases accountsFull.sound.kept_of_unsunk known unsunk with ⟨after, foundAfter, kept⟩
  exact ⟨id, after, represents, unsunk, foundAfter, kept⟩

/-- A function returns a variable of its own so deep inside that three levels cut it off; outside an
object is made and read. -/
def hiddenReturn : Tree where
  root := ⟨0⟩
  strings := .ofList ["point", "Point", "x", "hide"]
  nodes := #[⟨.root [⟨1⟩, ⟨4⟩, ⟨5⟩], none⟩, ⟨.assignment ⟨2⟩ ⟨3⟩, none⟩, ⟨.var ⟨0⟩, none⟩,
    ⟨.objectInstantiation ⟨1⟩ [], none⟩, ⟨.propertyAccess ⟨2⟩ ⟨2⟩, none⟩,
    ⟨.functionDecl ⟨3⟩ [] ⟨6⟩, none⟩, ⟨.block [⟨7⟩], none⟩, ⟨.returnStmt (some ⟨2⟩), none⟩]

theorem unsunk_of_noEscape_hiddenReturn :
    (Walk.ofTree {} hiddenReturn 3).truncated = [1] ∧ hiddenReturn.Fits 5 hiddenReturn.root ∧
      ((ofTreeAt {} hiddenReturn 3).recordOf? ⟨0, ⟨3⟩⟩).map (·.state) = some .noEscape ∧
      ∃ id after, (Walk.ofTree {} hiddenReturn 5).Represents id (.site ⟨0, ⟨3⟩⟩) ∧
        (∀ sink ∈ (Walk.ofTree {} hiddenReturn 5).sinks,
          id ∉ (Walk.ofTree {} hiddenReturn 5).resolveAliases.aliases sink.value) ∧
        (Walk.ofTree {} hiddenReturn 5).applySinks.records.find? id = some after ∧
        after.state = .noEscape ∧ after.trail = [] := by
  have cut : (Walk.ofTree {} hiddenReturn 3).truncated = [1] := by cbv
  have fits : hiddenReturn.Fits 5 hiddenReturn.root := by decide
  have noEscape : ((ofTreeAt {} hiddenReturn 3).recordOf? ⟨0, ⟨3⟩⟩).map (·.state) =
      some .noEscape := by cbv
  have leads : hiddenReturn.Leads (hiddenReturn.startAt 3) [0, 0] _ :=
    .step ⟨_, rfl, rfl, rfl⟩ rfl (.step ⟨_, rfl, rfl, rfl⟩ rfl (.refl _))
  have leadsFull : hiddenReturn.Leads (hiddenReturn.startAt 5) [0, 0] _ :=
    .step ⟨_, rfl, rfl, rfl⟩ rfl (.step ⟨_, rfl, rfl, rfl⟩ rfl (.refl _))
  rcases Option.map_eq_some_iff.1 noEscape with ⟨record, found, state⟩
  have unsunk := unsunk_of_noEscape {} fits leads leadsFull ⟨_, rfl, .here⟩ ⟨_, rfl, .here⟩ found
    state
  exact ⟨cut, fits, noEscape, unsunk⟩

end Analysis

end EscapePlan
