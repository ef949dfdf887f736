import WorldMarkup.Tree.Path

/-!
Questions about the steps of a single path. A query marks some of the steps; a path answers a
query when at least one step is marked. The first four forms look at one step at a time, the
others at where the marks of several queries lie along the path.
-/

set_option autoImplicit false
set_option relaxedAutoImplicit false

namespace WorldMarkup

variable {α : Type}

inductive Query (α : Type)
  /-- Steps whose data passes the test. -/
  | test (p : α → Bool)
  /-- Steps that every query marks. -/
  | all (qs : List (Query α))
  /-- Steps that some query marks. -/
  | any (qs : List (Query α))
  /-- Steps that the query leaves unmarked. -/
  | not (q : Query α)
  /-- Last steps of a chain of marks, one of each query, in order along the path. -/
  | sequence (qs : List (Query α))
  /-- Last steps of a chain of marks on adjacent steps, one of each query. -/
  | connected (qs : List (Query α))
  /-- Steps of the query below some mark of the anchor. -/
  | after (q anchor : Query α)
  /-- Steps of the query above some mark of the anchor. -/
  | before (q anchor : Query α)

namespace Query

def exactly [DecidableEq α] (value : α) : Query α := .test (fun d => decide (d = value))

def every : Query α := .all []

/-- For each step, whether some earlier step is marked; `seen` tells of the steps before. -/
def anyEarlier (seen : Bool) : List Bool → List Bool
  | [] => []
  | m :: ms => seen :: anyEarlier (seen || m) ms

def anyLater : List Bool → List Bool
  | [] => []
  | _ :: ms => ms.any id :: anyLater ms

def justBefore (marks : List Bool) : List Bool := (false :: marks).take marks.length

def meet (xs ys : List Bool) : List Bool := List.zipWith (· && ·) xs ys

def join (xs ys : List Bool) : List Bool := List.zipWith (· || ·) xs ys

/-- The ends of a chain through the listed marks, each linked to where the chain had got. -/
def chain (link : List Bool → List Bool) (width : Nat) : List (List Bool) → List Bool
  | [] => List.replicate width false
  | first :: rest => rest.foldl (fun reach marks => meet marks (link reach)) first

mutual

/-- Which steps of the path the query marks. -/
def marks (path : Path α) : Query α → List Bool
  | .test p => path.map (fun s => p s.data)
  | .all qs => (marksEach path qs).foldl meet (List.replicate path.length true)
  | .any qs => (marksEach path qs).foldl join (List.replicate path.length false)
  | .not q => (marks path q).map (fun m => !m)
  | .sequence qs => chain (anyEarlier false) path.length (marksEach path qs)
  | .connected qs => chain justBefore path.length (marksEach path qs)
  | .after q anchor => meet (marks path q) (anyEarlier false (marks path anchor))
  | .before q anchor => meet (marks path q) (anyLater (marks path anchor))

def marksEach (path : Path α) : List (Query α) → List (List Bool)
  | [] => []
  | q :: qs => marks path q :: marksEach path qs

end

def hits (q : Query α) (path : Path α) : Bool := (q.marks path).any id

mutual

/-- The query spelled out, its tests left opaque. -/
def describe : Query α → String
  | .test _ => "Match(<predicate>)"
  | .all qs => "And([" ++ describeEach qs ++ "])"
  | .any qs => "Or([" ++ describeEach qs ++ "])"
  | .not q => "Not(" ++ describe q ++ ")"
  | .sequence qs => "Sequence([" ++ describeEach qs ++ "])"
  | .connected qs => "Connected([" ++ describeEach qs ++ "])"
  | .after q anchor => "After(" ++ describe q ++ ", " ++ describe anchor ++ ")"
  | .before q anchor => "Before(" ++ describe q ++ ", " ++ describe anchor ++ ")"

def describeEach : List (Query α) → String
  | [] => ""
  | [q] => describe q
  | q :: qs => describe q ++ ", " ++ describeEach qs

end

@[simp] theorem length_meet (xs ys : List Bool) :
    (meet xs ys).length = min xs.length ys.length := by
  simp [meet]

@[simp] theorem length_join (xs ys : List Bool) :
    (join xs ys).length = min xs.length ys.length := by
  simp [join]

@[simp] theorem length_anyEarlier (seen : Bool) (ms : List Bool) :
    (anyEarlier seen ms).length = ms.length := by
  induction ms generalizing seen with
  | nil => rfl
  | cons m ms ih => simp [anyEarlier, ih]

@[simp] theorem length_anyLater (ms : List Bool) : (anyLater ms).length = ms.length := by
  induction ms with
  | nil => rfl
  | cons m ms ih => simp [anyLater, ih]

@[simp] theorem length_justBefore (ms : List Bool) : (justBefore ms).length = ms.length := by
  simp [justBefore]

end Query

end WorldMarkup
