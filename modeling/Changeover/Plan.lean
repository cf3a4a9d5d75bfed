/-!
# Plans: the order actions run in

A stage is a list of jobs, each with an id and the ids it depends on. A plan gives for every stage
the order in which its jobs run: always the first job, by position, whose dependencies inside the
stage have all been placed. Dependencies may also name jobs of earlier stages or ids already done.

Planning runs nothing. It fails on a repeated id, a dependency that names nothing, one that names
a job of a later stage, and on cycles.
-/

namespace Changeover

structure Job where
  id : String
  dependencies : List String := []
  deriving DecidableEq, Inhabited

structure JobStage where
  name : String
  jobs : List Job
  deriving DecidableEq, Inhabited

def JobStage.ids (s : JobStage) : List String := s.jobs.map (·.id)

inductive PlanError where
  | duplicate (action : String)
  | unknownDependency (action dependency : String)
  | laterStage (action stage dependency : String)
  | cycle (actions : List String)
  deriving DecidableEq

def PlanError.message : PlanError → String
  | .duplicate action => s!"Duplicate action id: {action}"
  | .unknownDependency action dependency =>
    s!"Action {action} depends on unknown action {dependency}"
  | .laterStage action stage dependency =>
    s!"Action {action} in stage {stage} depends on {dependency} from a later stage"
  | .cycle actions => "Dependency cycle detected involving: " ++ ", ".intercalate actions

/-- Positions of a stage's jobs in running order, and for each job how many jobs of the stage the
longest chain of dependencies below it has. -/
structure StagePlan where
  name : String
  order : List Nat
  depths : List Nat
  deriving DecidableEq, Inhabited

namespace StagePlan

def depth (p : StagePlan) (i : Nat) : Nat := p.depths.getD i 0

/-- The running order cut by depth. No job depends on another of its tier. -/
def tiers (p : StagePlan) : List (List Nat) :=
  match (p.order.map p.depth).max? with
  | none => []
  | some top => (List.range (top + 1)).map fun d => p.order.filter (p.depth · == d)

end StagePlan

namespace JobStage

def needs (s : JobStage) : List (List Nat) :=
  s.jobs.map fun job => job.dependencies.filterMap fun d => s.ids.idxOf? d

end JobStage

/-- The first position not yet placed whose needs have all been placed. -/
def nextReady (needs : List (List Nat)) (placed : List Nat) : Option Nat :=
  (List.range needs.length).find? fun i =>
    !placed.contains i && (needs.getD i []).all placed.contains

def placeReady (needs : List (List Nat)) : Nat → List Nat → List Nat
  | 0, placed => placed
  | n + 1, placed =>
    match nextReady needs placed with
    | none => placed
    | some i => placeReady needs n (placed ++ [i])

def runningOrder (needs : List (List Nat)) : List Nat := placeReady needs needs.length []

def depthAbove (depths : List Nat) (below : List Nat) : Nat :=
  below.foldl (fun m j => max m (depths.getD j 0 + 1)) 0

def depthsAlong (needs : List (List Nat)) (order : List Nat) : List Nat :=
  order.foldl (fun depths i => depths.set i (depthAbove depths (needs.getD i [])))
    (List.replicate needs.length 0)

def firstRepeated : List String → List String → Option String
  | _, [] => none
  | seen, id :: ids => if seen.contains id then some id else firstRepeated (id :: seen) ids

/-- What is wrong with a dependency of a job, if anything: `known` holds the ids that may be named
besides those of the stage, `later` the ids of the stages after it. -/
def dependencyError? (s : JobStage) (known later : List String) (job : Job) (d : String) :
    Option PlanError :=
  if s.ids.contains d then none
  else if later.contains d then some (.laterStage job.id s.name d)
  else if known.contains d then none
  else some (.unknownDependency job.id d)

def planStage (known later : List String) (s : JobStage) : Except PlanError StagePlan :=
  match s.jobs.findSome? fun job => job.dependencies.findSome? (dependencyError? s known later job)
  with
  | some e => .error e
  | none =>
    let order := runningOrder s.needs
    if order.length = s.jobs.length then
      .ok ⟨s.name, order, depthsAlong s.needs order⟩
    else
      let stuck := (List.range s.jobs.length).filter (!order.contains ·)
      .error (.cycle ((stuck.filterMap fun i => s.ids[i]?).mergeSort (fun a b => decide (a ≤ b))))

def planStages (known : List String) : List JobStage → Except PlanError (List StagePlan)
  | [] => .ok []
  | s :: rest => do
    let p ← planStage known (rest.flatMap JobStage.ids) s
    let ps ← planStages (known ++ s.ids) rest
    pure (p :: ps)

/-- The plan of all stages. Ids in `done` may be depended on and must not be used again. -/
def plan (stages : List JobStage) (done : List String) : Except PlanError (List StagePlan) :=
  match firstRepeated done (stages.flatMap JobStage.ids) with
  | some id => .error (.duplicate id)
  | none => planStages done stages

end Changeover
