import EscapePlan.Proofs.Analysis.Steps

/-!
# Loops of a walk

`Along` says that something holds of every item of a list at the point that the evaluation
has come to when the item's turn comes.  Loops whose rounds establish a fact about their item
establish it along the list.
-/

namespace EscapePlan

/-- Something holds of every item of a list, at the point where its turn comes. -/
def Along {γ : Type} (advance : Progress → γ → Progress) (holds : γ → Progress → Prop) :
    List γ → Progress → Prop
  | [], _ => True
  | item :: rest, progress =>
      holds item progress ∧ Along advance holds rest (advance progress item)

namespace Along

variable {γ δ : Type} {advance : Progress → γ → Progress} {holds stronger : γ → Progress → Prop}

theorem mono {items : List γ} {start : Progress} (along : Along advance stronger items start)
    (enough : ∀ item progress, stronger item progress → holds item progress) :
    Along advance holds items start := by
  induction items generalizing start with
  | nil => exact along
  | cons item rest inductionHypothesis =>
      exact ⟨enough item start along.1, inductionHypothesis along.2⟩

theorem append {first second : List γ} {start : Progress}
    (one : Along advance holds first start)
    (two : Along advance holds second (first.foldl advance start)) :
    Along advance holds (first ++ second) start := by
  induction first generalizing start with
  | nil => exact two
  | cons item rest inductionHypothesis =>
      exact ⟨one.1, inductionHypothesis one.2 two⟩

theorem map {change : δ → γ} {items : List δ} {start : Progress}
    (along : Along (fun progress item => advance progress (change item))
      (fun item => holds (change item)) items start) :
    Along advance holds (items.map change) start := by
  induction items generalizing start with
  | nil => exact along
  | cons item rest inductionHypothesis =>
      exact ⟨along.1, inductionHypothesis along.2⟩

theorem of_append {first second : List γ} {start : Progress}
    (along : Along advance holds (first ++ second) start) :
    Along advance holds first start ∧ Along advance holds second (first.foldl advance start) := by
  induction first generalizing start with
  | nil => exact ⟨trivial, along⟩
  | cons item rest inductionHypothesis =>
      rcases inductionHypothesis along.2 with ⟨one, two⟩
      exact ⟨⟨along.1, one⟩, two⟩

theorem of_map {change : δ → γ} {items : List δ} {start : Progress}
    (along : Along advance holds (items.map change) start) :
    Along (fun progress item => advance progress (change item))
      (fun item => holds (change item)) items start := by
  induction items generalizing start with
  | nil => exact along
  | cons item rest inductionHypothesis => exact ⟨along.1, inductionHypothesis along.2⟩

theorem of_forall {items : List γ} {start : Progress} (all : ∀ item progress, holds item progress) :
    Along advance holds items start := by
  induction items generalizing start with
  | nil => exact trivial
  | cons item rest inductionHypothesis => exact ⟨all item start, inductionHypothesis⟩

end Along

/-- What holds along a plan holds of every step that is taken. -/
theorem Tree.Takes.holds {tree : Tree} {levels : Nat} {plan : List Step} {start progress : Progress}
    {step : Step} (takes : tree.Takes levels plan start step progress)
    {holds : Step → Progress → Prop}
    (along : Along (Progress.advance (tree.evaluate levels)) holds plan start) :
    holds step progress := by
  induction takes with
  | here => exact along.1
  | later _ inductionHypothesis => exact inductionHypothesis along.2

/-- What holds of every step that is taken holds along a plan. -/
theorem Along.of_takes {tree : Tree} {levels : Nat} {plan : List Step} {start : Progress}
    {holds : Step → Progress → Prop}
    (all : ∀ step progress, tree.Takes levels plan start step progress → holds step progress) :
    Along (Progress.advance (tree.evaluate levels)) holds plan start := by
  induction plan generalizing start with
  | nil => exact trivial
  | cons step rest inductionHypothesis =>
      exact ⟨all step start .here,
        inductionHypothesis fun other progress takes => all other progress (.later takes)⟩

namespace Walk

instance {γ : Type} {advance : Progress → γ → Progress} {note : γ → Progress → Walk → Prop}
    [lasting : ∀ item progress, Lasting (note item progress)] {items : List γ}
    {start : Progress} :
    Lasting fun walk => Along advance (fun item progress => note item progress walk) items
      start :=
  ⟨fun grows along => along.mono fun _ _ noted => Lasting.last grows noted⟩

end Walk

namespace Walker

open Walk

variable {α β γ : Type} {law : Law} {scope : Nat} {saved : List Bindings} {start : Progress}
  {advance : Progress → γ → Progress} {items : List γ} {given : Walk → Prop}
  {permitted : γ → Progress → Prop}

/-- A loop does for every item what its rounds do. -/
theorem runs_forIn {body : γ → PUnit → Walker (ForInStep PUnit)}
    {note : γ → Progress → Walk → Prop} [∀ item progress, Lasting (note item progress)]
    (permits : Along advance permitted items start)
    (round : ∀ item progress, permitted item progress →
      Runs law scope saved progress (fun _ => True) (body item ⟨⟩) (advance progress item)
        fun next walk => next = .yield ⟨⟩ ∧ note item progress walk) :
    Runs law scope saved start (fun _ => True) (forIn items ⟨⟩ body) (items.foldl advance start)
      fun _ walk => Along advance (fun item progress => note item progress walk) items start := by
  induction items generalizing start with
  | nil => exact Runs.pure fun _ facts => facts
  | cons item rest inductionHypothesis =>
      rw [List.forIn_cons]
      apply (round item start permits.1).bind
      intro next
      by_cases yields : next = .yield ⟨⟩
      · subst yields
        intro walk at_ facts
        rcases ((inductionHypothesis permits.2).keep walk at_ facts.2) with
          ⟨grows, atFinish, along, noted⟩
        exact ⟨grows, atFinish, noted, along⟩
      · exact fun walk _ facts => absurd facts.1 yields

/-- A loop that does not change the point. -/
theorem runs_forIn_constant {body : γ → PUnit → Walker (ForInStep PUnit)}
    {note : γ → Walk → Prop} [Lasting given] [∀ item, Lasting (note item)]
    (round : ∀ item ∈ items, Runs law scope saved start given (body item ⟨⟩)
      start fun next walk => next = .yield ⟨⟩ ∧ note item walk) :
    Runs law scope saved start given (forIn items ⟨⟩ body) start
      fun _ walk => ∀ item ∈ items, note item walk := by
  induction items with
  | nil => exact Runs.pure fun _ _ _ member => absurd member List.not_mem_nil
  | cons item rest inductionHypothesis =>
      rw [List.forIn_cons]
      have rounds := inductionHypothesis fun other member =>
        round other (List.mem_cons_of_mem _ member)
      apply (round item List.mem_cons_self).keepGiven.bind
      intro next
      by_cases yields : next = .yield ⟨⟩
      · subst yields
        rintro walk at_ ⟨⟨-, noted⟩, facts⟩
        rcases rounds walk at_ facts with ⟨grows, atFinish, all⟩
        exact ⟨grows, atFinish, List.forall_mem_cons.2 ⟨Lasting.last grows noted, all⟩⟩
      · exact fun walk _ facts => absurd facts.1.1 yields

/-- The results of an action for every item: something holds of one for each item, and of each
for some item. -/
theorem runs_mapM {action : γ → Walker α} {note : γ → Progress → α → Walk → Prop}
    [∀ item progress value, Lasting (note item progress value)]
    (permits : Along advance permitted items start)
    (each : ∀ item progress, permitted item progress →
      Runs law scope saved progress (fun _ => True) (action item) (advance progress item)
        (note item progress)) :
    Runs law scope saved start (fun _ => True) (items.mapM action) (items.foldl advance start)
      fun values walk =>
        Along advance (fun item progress => ∃ value ∈ values, note item progress value walk)
          items start ∧
        ∀ value ∈ values, ∃ item progress, permitted item progress ∧
          note item progress value walk := by
  induction items generalizing start with
  | nil => exact Runs.pure fun _ facts => ⟨facts, fun _ member => absurd member List.not_mem_nil⟩
  | cons item rest inductionHypothesis =>
      rw [List.mapM_cons]
      apply (each item start permits.1).bind
      intro value walk at_ noted
      rcases (inductionHypothesis permits.2).keep walk at_ noted with
        ⟨grows, atFinish, ⟨along, all⟩, kept⟩
      refine ⟨grows, atFinish, ⟨⟨value, List.mem_cons_self, kept⟩, ?_⟩,
        List.forall_mem_cons.2 ⟨⟨item, start, permits.1, kept⟩, all⟩⟩
      apply along.mono
      rintro other progress ⟨found, member, holds⟩
      exact ⟨found, List.mem_cons_of_mem _ member, holds⟩

end Walker

end EscapePlan
