import NeuralC.Memory.Liveness
import NeuralC.Size
import NeuralC.Work

/-!
# NeuralC.Memory.Plan

Memory for the outputs of layers.  The caller of the generated code brings
memory for the input of the model and for its last output; every output in
between lives in a pool that it shares with others.  Pools are numbered from
1, and number 0 stands for the caller's memory.

Outputs are placed in order.  The first opens a pool.  A layer that overwrites
its input joins the pool of that input.  Any other takes the first pool that
holds none of its operands and is not read any more, and opens a new one when
there is none.

A pool is as large as its largest output.  The bytes of an output and of all
pools together are sizes, so they can overflow.
-/

namespace NeuralC.Memory

/-! ## Plans -/

/-- A piece of memory, the layers whose outputs live in it, and the last place
at which any of them is read. -/
structure Pool where
  tenants : List Handle
  liveUntil : Nat
deriving DecidableEq, Repr

/-- A placement of outputs in pools.  `overwrites` lists the layers that write
over an operand, each behind that operand. -/
structure Plan where
  pools : List Pool
  ranges : List (Handle × LiveRange)
  overwrites : List (Handle × Handle)
deriving DecidableEq, Repr

namespace Plan

/-- The plan without pools. -/
def empty : Plan := ⟨[], [], []⟩

/-- The number of the pool of an output; 0 when it is the caller's. -/
def poolIndex (p : Plan) (h : Handle) : Nat :=
  match p.pools.findIdx? (·.tenants.contains h) with
  | some i => i + 1
  | none => 0

/-- The range of an output. -/
def range? (p : Plan) (h : Handle) : Option LiveRange := (p.ranges.find? (·.1 = h)).map (·.2)

/-- Whether two outputs live in one pool. -/
def sharesPool (p : Plan) (a b : Handle) : Bool :=
  p.poolIndex a != 0 && p.poolIndex a == p.poolIndex b

/-- Whether the layer `b` writes over the output of `a`. -/
def isOverwrite (p : Plan) (a b : Handle) : Bool := p.overwrites.contains (a, b)

/-- The pools as text, one to a line. -/
def render (p : Plan) : String :=
  String.join (p.pools.zipIdx.map fun (pool, i) =>
    let tenants := Text.bracketed (pool.tenants.map fun h => s!"n{h}")
    s!"pool {i + 1}: {tenants} live until {pool.liveUntil}\n")

/-- The plan with an output in a new pool. -/
def openPool (p : Plan) (h : Handle) (range : LiveRange) : Plan :=
  { p with pools := p.pools ++ [⟨[h], range.keepUntil⟩] }

/-- The plan with an output in an existing pool. -/
def joinPool (p : Plan) (index : Nat) (h : Handle) (range : LiveRange) : Plan :=
  { p with pools := p.pools.modify (index - 1) fun pool =>
      ⟨pool.tenants ++ [h], max pool.liveUntil range.keepUntil⟩ }

/-- The first pool without an operand of a layer and without a reader behind
the place of the layer. -/
def freePool? (p : Plan) (preds : List Handle) (place : Nat) : Option Nat :=
  let taken := preds.map p.poolIndex
  (p.pools.zipIdx.find? fun (pool, i) => !taken.contains (i + 1) && pool.liveUntil ≤ place).map
    fun (_, i) => i + 1

end Plan

/-! ## Placing outputs -/

/-- Where an output goes. -/
inductive Placement where
  /-- Into a new pool. -/
  | opens (index : Nat)
  /-- Into a pool that is free. -/
  | reuses (index : Nat)
  /-- Over an operand, in the pool of that. -/
  | overwrites (operand : Handle) (index : Nat)
deriving DecidableEq, Repr

/-- Where the output of a node goes, given the plan of those in front of it. -/
def placementOf (g : Graph) (p : Plan) (n : Node) (range : LiveRange) :
    Except Failure Placement :=
  if range.created = 1 then .ok (.opens (p.pools.length + 1))
  else if n.layer.overwritesInput then
    match n.preds with
    | [operand] => do
      let overwritten ← g.node operand
      match p.poolIndex operand with
      | 0 => throw (.reported (.allocation n.name (.overwriteUnplaced overwritten.name)))
      | index => return .overwrites operand index
    | preds => .error (.reported (.allocation n.name (.overwriteInputs preds.length)))
  else match p.freePool? n.preds range.created with
    | some index => .ok (.reuses index)
    | none => .ok (.opens (p.pools.length + 1))

/-- The number of the pool that an output joins. -/
def Placement.joins? : Placement → Option Nat
  | .opens _ => none
  | .reuses index | .overwrites _ index => some index

/-- Whether there is a pool of some number. -/
def Plan.hasPool (p : Plan) (index : Nat) : Bool := 0 < index && index ≤ p.pools.length

/-- The plan with an output placed. -/
def Plan.apply (p : Plan) (h : Handle) (range : LiveRange) : Placement → Plan
  | .opens _ => p.openPool h range
  | .reuses index => p.joinPool index h range
  | .overwrites operand index =>
    let p := p.joinPool index h range
    { p with overwrites := p.overwrites ++ [(operand, h)] }

/-- The plan with an output placed, where the pool that it joins is there. -/
def Plan.place (p : Plan) (h : Handle) (range : LiveRange) (placement : Placement) :
    Except Failure Plan :=
  if placement.joins?.all p.hasPool then .ok (p.apply h range placement) else .error .outOfRange

/-- Places the output of one layer. -/
def placeOne (g : Graph) (p : Plan) (h : Handle) : Except Failure (Plan × Placement) := do
  let n ← g.node h
  match p.range? h with
  | none => throw (.reported (.allocation n.name .noLiveRange))
  | some range =>
    let placement ← placementOf g p n range
    return (← p.place h range placement, placement)

/-- Places outputs in order.  The value lists the placements that were made,
also when one more could not be. -/
def placeAll (g : Graph) (p : Plan) :
    List Handle → List (Handle × Placement) × Except Failure Plan
  | [] => ([], .ok p)
  | h :: hs =>
    match placeOne g p h with
    | .error f => ([], .error f)
    | .ok (p', placement) =>
      let (made, result) := placeAll g p' hs
      ((h, placement) :: made, result)

/-- The layers whose outputs need a pool: all but the first and the last. -/
def interior (g : Graph) : List Handle := (g.order.drop 1).dropLast

/-- The placements for a graph, and its plan. -/
def layout (g : Graph) : List (Handle × Placement) × Except Failure Plan :=
  match liveness g with
  | .error f => ([], .error f)
  | .ok ranges => placeAll g { Plan.empty with ranges := g.order.zip ranges } (interior g)

/-! ## Sizes -/

/-- The bytes of one element of an output: full bytes in its number type, or four when it
has none. -/
def elementBytes (n : Node) : Nat :=
  match n.quant with
  | some q => (q.width + 7) / 8
  | none => 4

/-- The bytes of an output. -/
def outputBytes (n : Node) : Except Failure Nat := do
  bounded ((← n.layer.outputShape.countSample) * elementBytes n)

/-- The bytes of a pool: those of its largest tenant. -/
def poolBytes (g : Graph) (pool : Pool) : Except Failure Nat := do
  let sizes ← pool.tenants.mapM fun h => do outputBytes (← g.node h)
  return sizes.max?.getD 0

/-- The bytes of all pools. -/
def footprint (g : Graph) (p : Plan) : Except Failure Nat :=
  p.pools.foldlM (fun total pool => do bounded (total + (← poolBytes g pool))) 0

/-! ## Allocation -/

/-- Takes note of a placement; the first layer opens its pool without a
word. -/
def notePlacement (g : Graph) (h : Handle) (placement : Placement) : Work Unit :=
  let name := g.nameOf h
  match placement with
  | .opens index => do
    Work.count (·.recordPool)
    if g.position? h ≠ some 1 then Work.note .debug s!"'{name}' opens pool {index}"
  | .reuses index => Work.note .debug s!"'{name}' reuses pool {index}"
  | .overwrites operand index =>
    Work.note .debug s!"'{name}' overwrites '{g.nameOf operand}' in pool {index}"

/-- Takes note of placements one after another. -/
def notePlacements (g : Graph) : List (Handle × Placement) → Work Unit
  | [] => pure ()
  | (h, placement) :: rest => do
    notePlacement g h placement
    notePlacements g rest

/-- Plans the memory of the graph at work. -/
def allocate : Work Plan := do
  let g ← Work.graph
  let (made, result) := layout g
  notePlacements g made
  let plan ← Work.attempt result
  let bytes ← Work.attempt (footprint g plan)
  Work.count (·.recordFootprint bytes)
  Work.note .info s!"Allocated {plan.pools.length} pools, {bytes} bytes of activations"
  return plan

end NeuralC.Memory
