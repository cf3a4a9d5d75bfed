import Changeover.Action

/-!
# Batches

A stage runs in batches. One at a time, every action is a batch of its own. In parallel, the tiers
of the plan are taken in turn, and each action of a tier goes into the first batch of the tier
whose actions hold none of its resources.
-/

namespace Changeover

/-- A batch being filled: positions of its actions, and the resources they hold. -/
structure Batch where
  members : List Nat
  held : List String
  deriving DecidableEq

namespace Batch

def admits (b : Batch) (resources : List String) : Bool := resources.all (!b.held.contains ·)

/-- Put a position into the first batch that admits it, or into a new one at the end. -/
def place (i : Nat) (resources : List String) : List Batch → List Batch
  | [] => [⟨[i], resources⟩]
  | b :: bs =>
    if b.admits resources then ⟨b.members ++ [i], b.held ++ resources⟩ :: bs
    else b :: place i resources bs

def ofTier (resources : Nat → List String) (tier : List Nat) : List Batch :=
  tier.foldl (fun bs i => place i (resources i) bs) []

end Batch

def resourcesAt (actions : List Action) (i : Nat) : List String :=
  (actions[i]?.map (·.resources)).getD []

def singleBatches (p : StagePlan) (_ : List Action) : List (List Nat) := p.order.map ([·])

def parallelBatches (p : StagePlan) (actions : List Action) : List (List Nat) :=
  p.tiers.flatMap fun tier => (Batch.ofTier (resourcesAt actions) tier).map (·.members)

def batchesFor (parallel : Bool) : StagePlan → List Action → List (List Nat) :=
  if parallel then parallelBatches else singleBatches

end Changeover
