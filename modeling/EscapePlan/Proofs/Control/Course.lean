import EscapePlan.Proofs.Analysis.Occurrence

/-!
# Where control can come

Whether control can leave a node is said by recursion on the tree, down to so many levels, and so is
where it can come: `Tree.course` goes over a tree in the order of evaluation and marks each
definition of a variable by whether control can come to it from the start of its body.
-/

namespace EscapePlan

/-! ## What control can leave -/

/-- Whether control can leave a step, given which nodes it can leave. -/
def Step.completes (completes : NodeIndex → Bool) : Step → Bool
  | .visit child => completes child
  | .allocate | .enter _ | .declare _ | .overwrite _ => true

/-- Whether control can leave a node, given which nodes it can leave. -/
def NodeData.completes (tree : Tree) (completes : NodeIndex → Bool) : NodeData → Bool
  | .returnStmt _ | .throwStmt _ => false
  | .functionDecl .. | .closure .. => true
  | .ifStmt condition thenBranch elseBranch =>
      completes condition && (completes thenBranch || elseBranch.all completes)
  | .whileStmt condition _ => completes condition
  | .forStmt init condition _ _ => init.all completes && condition.all completes
  | .foreachStmt iterable _ _ _ => completes iterable
  | data => (data.plan tree).all (·.completes completes)

/-- Whether control can leave a node of which so many levels are walked.  What is cut off or not
there is left at once. -/
def Tree.completes (tree : Tree) : Nat → NodeIndex → Bool
  | 0, _ => true
  | levels + 1, index =>
      match tree.data? index with
      | none => true
      | some data => data.completes tree (tree.completes levels)

/-! ## Where control can come -/

/-- A definition of a variable: its name, the tree node that it comes from, unless it is that of a
parameter, and whether control can come to it from the start of its body. -/
structure Mark where
  name : StrId
  origin : Option NodeIndex
  reached : Bool
  deriving DecidableEq, Repr

/-- A point of the evaluation. -/
structure Course where
  /-- Whether control can come here from the start of the body. -/
  reached : Bool
  /-- The names that are bound to global variables here. -/
  globals : List StrId
  /-- The definitions so far. -/
  marks : List Mark
  deriving DecidableEq, Repr

namespace Course

/-- The point after a definition. -/
def define (origin : Option NodeIndex) (course : Course) (name : StrId) : Course :=
  { course with
    globals := course.globals.filter (· ≠ name)
    marks := course.marks ++ [⟨name, origin, course.reached⟩] }

/-- The point after a step that is no body, given the points after other nodes. -/
def take (visit : NodeIndex → Course → Course) (index : NodeIndex) (course : Course) :
    Step → Course
  | .visit child => visit child course
  | .allocate | .enter _ => course
  | .declare names => { course with globals := names ++ course.globals }
  | .overwrite names => names.foldl (define (some index)) course

/-- The point where a body begins, in which some names are defined. -/
def begin (course : Course) (params captures : List StrId) (index : NodeIndex) : Course :=
  captures.foldl (define (some index)) (params.foldl (define none) ⟨true, [], course.marks⟩)

end Course

/-- The point after a node but for whether control can leave it, given the points after other
nodes. -/
def NodeData.course (tree : Tree) (visit : NodeIndex → Course → Course) (index : NodeIndex)
    (data : NodeData) (course : Course) : Course :=
  match data with
  | .ifStmt condition thenBranch elseBranch =>
      let pivot := visit condition course
      let ended := visit thenBranch pivot
      elseBranch.elim ended fun elseBranch =>
        visit elseBranch { ended with reached := pivot.reached }
  | .functionDecl _ params body =>
      { course with marks := (visit body (course.begin params [] index)).marks }
  | .closure params captures body =>
      { course with marks := (visit body (course.begin params captures index)).marks }
  | .assignment target _ =>
      let stored := (data.plan tree).foldl (Course.take visit index) course
      match tree.data? target with
      | some (.var name) =>
          if name ∈ stored.globals then stored else stored.define (some target) name
      | _ => stored
  | data => (data.plan tree).foldl (Course.take visit index) course

/-- The point after a node, given the points after other nodes and which nodes control can
leave. -/
def NodeData.leave (tree : Tree) (visit : NodeIndex → Course → Course)
    (completes : NodeIndex → Bool) (index : NodeIndex) (data : NodeData) (course : Course) :
    Course :=
  { data.course tree visit index course with
    reached := course.reached && data.completes tree completes }

/-- The point after a node of which so many levels are walked. -/
def Tree.course (tree : Tree) : Nat → NodeIndex → Course → Course
  | 0, _, course => course
  | levels + 1, index, course =>
      match tree.data? index with
      | none => course
      | some data => data.leave tree (tree.course levels) (tree.completes levels) index course

/-- The definitions of variables in a tree, in the order of evaluation. -/
def Tree.marks (tree : Tree) : List Mark :=
  (tree.course depthLimit tree.root ⟨true, [], []⟩).marks

/-- Control can leave what it can come to and what can be left. -/
theorem Tree.reached_course (tree : Tree) (levels : Nat) (index : NodeIndex) (course : Course) :
    (tree.course levels index course).reached =
      (course.reached && tree.completes levels index) := by
  cases levels with
  | zero => exact (Bool.and_true _).symm
  | succ levels =>
      rw [Tree.course, Tree.completes]
      cases tree.data? index with
      | none => exact (Bool.and_true _).symm
      | some data => rfl

section

variable {visit : NodeIndex → Course → Course} {completes : NodeIndex → Bool}
  (reaches : ∀ index course, (visit index course).reached = (course.reached && completes index))
include reaches

/-- Control comes to the end of a plan if it can leave every step. -/
theorem Course.reached_foldl_take (index : NodeIndex) (plan : List Step) (course : Course) :
    (plan.foldl (take visit index) course).reached =
      (course.reached && plan.all (·.completes completes)) := by
  have defined (names : List StrId) (origin : Option NodeIndex) (course : Course) :
      (names.foldl (define origin) course).reached = course.reached := by
    induction names generalizing course with
    | nil => rfl
    | cons name names inductionHypothesis => exact inductionHypothesis _
  induction plan generalizing course with
  | nil => exact (Bool.and_true _).symm
  | cons step plan inductionHypothesis =>
      rw [List.foldl_cons, inductionHypothesis, List.all_cons, ← Bool.and_assoc]
      congr 1
      cases step with
      | visit child => exact reaches child course
      | overwrite names => exact (defined names _ course).trans (Bool.and_true _).symm
      | allocate => exact (Bool.and_true _).symm
      | enter body => exact (Bool.and_true _).symm
      | declare names => exact (Bool.and_true _).symm

end

end EscapePlan
