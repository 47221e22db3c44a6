import NeuralC.C.Model
import NeuralC.Proofs.Compile.Conversion
import NeuralC.Proofs.Memory.Partition

/-!
# NeuralC.Proofs.Compile.Buffers

The memory that the source of a model names.  Read as a `Source`, it declares one
union for each pool and then calls the layers; a call finds each of its operands
in a buffer, and converts the operand first where its number type is another.

1. The text of a model is that of a source with the unions and the reads that graph
   and plan ask for, which converts an operand exactly where the C types of its layer
   and of the called one differ (`exists_converting_source`).
2. An operand that is no input stands between the first layer and the last, so the
   plan has a pool for it, and the union of that pool declares it
   (`Source.Follows.declares`).
-/

namespace NeuralC.C

open NeuralC.Graph
open NeuralC.Memory (Plan Partitioned allocate interior mem_interior_iff)

/-! ## Sources -/

/-- Memory that an operand is found in: the input of the model, or the member for a layer in the
union of a pool. -/
inductive Buffer where
  | input
  | member (pool : Nat) (layer : String)
deriving DecidableEq, Repr

def Buffer.text : Buffer → String
  | input => "input"
  | member pool layer => s!"activations{pool}.{layer}_output"

/-- A conversion between number types, into an array of its own. -/
structure Conversion where
  source : String
  target : String
  array : String
  shape : Shape
  scale : Int
deriving DecidableEq, Repr

/-- An operand of a call. -/
structure Operand where
  buffer : Buffer
  conversion : Option Conversion
deriving DecidableEq, Repr

/-- The operand as an argument: what is passed is the buffer itself, or the array that it was
converted into. -/
def Operand.argument (o : Operand) : Argument :=
  let found := o.buffer.text
  match o.conversion with
  | none => ⟨found, []⟩
  | some ⟨source, target, array, shape, scale⟩ => ⟨array, [
      s!"static {target} {array}{extents shape};",
      s!"{conversionName source target}((const {source} *){found}, ({target} *){array}, " ++
        s!"{shape.elements}, {scale});"]⟩

/-- The C types that the operand is converted between. -/
def Operand.crossing? (o : Operand) : Option (String × String) :=
  o.conversion.map fun v => (v.source, v.target)

/-- A call of a layer on operands, in front of its weights and its output. -/
structure Call where
  layer : String
  operands : List Operand
  others : List String
deriving DecidableEq, Repr

namespace Call

/-- The layer that is called and the buffers that it reads. -/
def reads (c : Call) : String × List Buffer := (c.layer, c.operands.map Operand.buffer)

def crossings (c : Call) : List (Option (String × String)) := c.operands.map Operand.crossing?

def code (c : Call) : Code :=
  let arguments := c.operands.map Operand.argument
  lines (arguments.flatMap Argument.setup) ++
    enclosed s!"{c.layer}(" (lines (argumentLines (arguments.map Argument.text ++ c.others))) ");"

end Call

/-- The union of a pool, with a member for each of its layers. -/
structure PoolUnion where
  number : Nat
  members : List String
deriving DecidableEq, Repr

def PoolUnion.code (u : PoolUnion) : Code :=
  enclosed "static union \x7b" (lines (u.members.map fun m => s!"{m}_output_type {m}_output;"))
    s!"\x7d activations{u.number};"

/-- The source of a model: the files that it includes, the name of the last layer, the unions and
the calls. -/
structure Source where
  files : List String
  last : String
  unions : List PoolUnion
  calls : List Call
deriving DecidableEq, Repr

namespace Source

def code (src : Source) : Code :=
  lines (externOpen ++ [""]) ++ includes src.files ++
    lines ["", "void cnn(", "  const input_t input,"] ++
    braced s!"{src.last}_output_type {src.last}_output)" (
      lines ["", "// Output array allocation"] ++
      src.unions.flatMap PoolUnion.code ++
      lines ["", "// Model layers call chain"] ++
      src.calls.flatMap Call.code) ++
    blank ++ braced "void reset(void)" [] ++ blank ++
    lines externClose

/-- The buffer is the input, or a member of a union that the source declares. -/
def Declares (src : Source) : Buffer → Prop
  | .input => True
  | .member pool layer => ∃ u ∈ src.unions, u.number = pool ∧ layer ∈ u.members

end Source

/-! ## Graphs and plans as sources -/

/-- Where the output of a layer is found. -/
def bufferOf (g : Graph) (plan : Plan) (h : Handle) : Buffer :=
  if (g.get? h).any fun n => n.layer.isInput then .input
  else .member (plan.poolIndex h) (g.nameOf h)

/-- What the call of a layer reads; an input is not called. -/
def reads? (g : Graph) (plan : Plan) (h : Handle) : Option (String × List Buffer) :=
  (g.get? h).bind fun n =>
    if n.layer.isInput then none else some (n.name, n.preds.map (bufferOf g plan))

/-- The source has the unions of the pools and calls the layers of the graph in order, each on
the outputs of its operands. -/
structure Source.Follows (src : Source) (g : Graph) (plan : Plan) : Prop where
  unions_eq : src.unions = plan.pools.mapIdx fun i pool => ⟨i + 1, pool.tenants.map g.nameOf⟩
  calls_eq : src.calls.map Call.reads = g.order.filterMap (reads? g plan)

/-- The C type of the values of a layer that has a record. -/
def cType? (g : Graph) (h : Handle) : Option String := (g.typeOf? h).map NumberType.cName

/-- The C types at the ends of an edge, where they differ. -/
def crossing? (g : Graph) (source target : Handle) : Option (String × String) := do
  let a ← cType? g source
  let b ← cType? g target
  if a = b then none else some (a, b)

/-- The conversions in front of the call of a layer; an input is not called. -/
def crossings? (g : Graph) (h : Handle) : Option (List (Option (String × String))) :=
  (g.get? h).bind fun n =>
    if n.layer.isInput then none else some (n.preds.map (crossing? g · h))

/-- The source converts the operands of the layers whose own C type is another. -/
def Source.Converts (src : Source) (g : Graph) : Prop :=
  src.calls.map Call.crossings = g.order.filterMap (crossings? g)

section Reading

variable {t : Template} {s : Scope} {h : Handle} {n : Node} {code : Code}

/-- The code names the buffer that the plan gives the layer. -/
theorem place_eq_text (hn : s.graph.get? h = some n) :
    place s h n = (bufferOf s.graph s.plan h).text := by
  rw [place, bufferOf, hn, Option.any_some, nameOf_of_get? hn]
  split
  · rfl
  · rfl

theorem recordOf_eq_ok {q : QuantRecord} : t.recordOf n = .ok q ↔ n.quant = some q := by
  rw [Template.recordOf]
  cases n.quant <;> simp [Template.fault]

theorem cType?_of_quant {q : QuantRecord} (hn : s.graph.get? h = some n) (hq : n.quant = some q) :
    cType? s.graph h = some q.numberType.cName := by
  rw [cType?, typeOf?_of_quant hn hq, Option.map_some]

/-- An argument is an operand in the buffer of its layer, converted where it crosses types. -/
theorem exists_operand {q : QuantRecord} {i : Nat} {p : Handle} {a : Argument}
    (hn : s.graph.get? h = some n) (hq : n.quant = some q) (ha : operand t s n q i p = .ok a) :
    ∃ o : Operand, o.argument = a ∧ o.buffer = bufferOf s.graph s.plan p ∧
      o.crossing? = crossing? s.graph p h := by
  obtain ⟨pred, hpred, ha⟩ := bind_eq_ok.mp ha
  obtain ⟨r, hr, ha⟩ := bind_eq_ok.mp ha
  rw [node_eq_ok] at hpred
  rw [recordOf_eq_ok] at hr
  rw [place_eq_text hpred] at ha
  have hcrossing : crossing? s.graph p h =
      if r.numberType.cName = q.numberType.cName then none
      else some (r.numberType.cName, q.numberType.cName) := by
    simp [crossing?, cType?_of_quant hpred hr, cType?_of_quant hn hq]
  by_cases hsame : r.numberType.cName = q.numberType.cName
  · dsimp only at ha
    rw [if_pos hsame] at ha hcrossing
    injection ha with ha
    exact ⟨⟨_, none⟩, ha, rfl, hcrossing.symm⟩
  · dsimp only at ha
    rw [if_neg hsame] at ha hcrossing
    obtain ⟨elements, helements, ha⟩ := bind_eq_ok.mp ha
    obtain ⟨-, rfl⟩ := Shape.count_eq_ok.mp helements
    injection ha with ha
    exact ⟨⟨_, some ⟨_, _, _, _, _⟩⟩, ha, rfl, hcrossing.symm⟩

/-- The code of a call reads the operands' buffers and converts where the types differ. -/
theorem exists_call (hn : s.graph.get? h = some n) (hinput : ¬ n.layer.isInput = true)
    (hc : call t s h n = .ok code) :
    ∃ c : Call, c.code = code ∧ reads? s.graph s.plan h = some c.reads ∧
      crossings? s.graph h = some c.crossings := by
  obtain ⟨q, hq, hc⟩ := bind_eq_ok.mp hc
  rw [recordOf_eq_ok] at hq
  obtain ⟨arguments, harguments, hc⟩ := bind_eq_ok.mp hc
  have hoperand : ∀ (x : Handle × Nat) a, operand t s n q x.2 x.1 = .ok a →
      ∃ o : Operand, o.argument = a ∧ (o.buffer, o.crossing?) =
        ((fun p => (bufferOf s.graph s.plan p, crossing? s.graph p h)) ∘ Prod.fst) x := by
    intro x a ha
    obtain ⟨o, hargument, hbuffer, hcrossing⟩ := exists_operand hn hq ha
    exact ⟨o, hargument, by rw [hbuffer, hcrossing, Function.comp_apply]⟩
  obtain ⟨operands, rfl, hkeys⟩ := exists_map_of_mapM hoperand harguments
  rw [← List.map_map, List.zipIdx_map_fst] at hkeys
  have hbuffers := congrArg (List.map Prod.fst) hkeys
  have hcrossings := congrArg (List.map Prod.snd) hkeys
  simp only [List.map_map, Function.comp_def] at hbuffers hcrossings
  injection hc with hc
  rw [List.append_assoc] at hc
  refine ⟨⟨n.name, operands, _⟩, hc, ?_, ?_⟩
  · rw [reads?, hn, Option.bind_some, if_neg hinput, Call.reads, hbuffers]
  · rw [crossings?, hn, Option.bind_some, if_neg hinput, Call.crossings, hcrossings]

/-- The calls come in the order of the layers, one for each computed layer. -/
theorem exists_calls {hs : List Handle} (hc : calls t s hs = .ok code) :
    ∃ cs : List Call, cs.flatMap Call.code = code ∧
      cs.map Call.reads = hs.filterMap (reads? s.graph s.plan) ∧
      cs.map Call.crossings = hs.filterMap (crossings? s.graph) := by
  induction hs generalizing code with
  | nil =>
      injection hc with hc
      exact ⟨[], hc, rfl, rfl⟩
  | cons h hs ih =>
      obtain ⟨n, hn, hc⟩ := bind_eq_ok.mp hc
      rw [node_eq_ok] at hn
      dsimp only at hc
      split at hc
      · next hinput =>
          rw [pure_bind] at hc
          obtain ⟨rest, hrest, hc⟩ := bind_eq_ok.mp hc
          obtain ⟨cs, rfl, hreads, hcrossings⟩ := ih hrest
          injection hc with hc
          have hread : reads? s.graph s.plan h = none := by
            rw [reads?, hn, Option.bind_some, if_pos hinput]
          have hcrossing : crossings? s.graph h = none := by
            rw [crossings?, hn, Option.bind_some, if_pos hinput]
          exact ⟨cs, hc, by rw [List.filterMap_cons_none hread, hreads],
            by rw [List.filterMap_cons_none hcrossing, hcrossings]⟩
      · next hinput =>
          obtain ⟨first, hfirst, hc⟩ := bind_eq_ok.mp hc
          obtain ⟨rest, hrest, hc⟩ := bind_eq_ok.mp hc
          obtain ⟨c, rfl, hread, hcrossing⟩ := exists_call hn hinput hfirst
          obtain ⟨cs, rfl, hreads, hcrossings⟩ := ih hrest
          injection hc with hc
          refine ⟨c :: cs, by rw [← hc, List.flatMap_cons], ?_, ?_⟩
          · rw [List.filterMap_cons_some hread, List.map_cons, hreads]
          · rw [List.filterMap_cons_some hcrossing, List.map_cons, hcrossings]

/-- A pool is a union of the buffers of its tenants. -/
theorem poolMemory_eq {g : Graph} {pool : Memory.Pool} {number : Nat}
    (hc : poolMemory g pool number = .ok code) :
    PoolUnion.code ⟨number, pool.tenants.map g.nameOf⟩ = code := by
  obtain ⟨tenants, htenants, hc⟩ := bind_eq_ok.mp hc
  injection hc with hc
  rw [← map_name_of_mapM htenants, ← hc, PoolUnion.code, List.map_map]
  rfl

/-- The text of a model is that of a source for its graph and its plan. -/
theorem exists_converting_source (hm : model t s = .ok code) :
    ∃ src : Source, src.code = code ∧ src.Follows s.graph s.plan ∧ src.Converts s.graph := by
  obtain ⟨e, _, hm⟩ := bind_eq_ok.mp hm
  obtain ⟨layers, _, hm⟩ := bind_eq_ok.mp hm
  obtain ⟨memory, hmemory, hm⟩ := bind_eq_ok.mp hm
  obtain ⟨chain, hchain, hm⟩ := bind_eq_ok.mp hm
  obtain ⟨calls, rfl, hcalls, hcrossings⟩ := exists_calls hchain
  have hunion : ∀ (x : Memory.Pool × Nat) code, poolMemory s.graph x.1 (x.2 + 1) = .ok code →
      ∃ u : PoolUnion, u.code = code ∧ id u = ⟨x.2 + 1, x.1.tenants.map s.graph.nameOf⟩ :=
    fun _ _ hc => ⟨_, poolMemory_eq hc, rfl⟩
  obtain ⟨unions, rfl, hunions⟩ := exists_map_of_mapM hunion hmemory
  rw [List.map_id] at hunions
  injection hm with hm
  refine ⟨⟨_, _, unions, calls⟩, hm, ⟨?_, hcalls⟩, hcrossings⟩
  rw [List.mapIdx_eq_zipIdx_map]
  exact hunions

/-- The model's source follows the plan. -/
theorem exists_source (hm : model t s = .ok code) :
    ∃ src : Source, src.code = code ∧ src.Follows s.graph s.plan := by
  obtain ⟨src, hcode, hs, _⟩ := exists_converting_source hm
  exact ⟨src, hcode, hs⟩

end Reading

/-! ## Declared buffers -/

/-- An operand that is no input stands between the first layer and the last. -/
theorem mem_interior_of_mem_preds {g : Graph} (hg : g.WellFormed) {h p : Handle} {n m : Node}
    (hn : g.get? h = some n) (hp : p ∈ n.preds) (hm : g.get? p = some m)
    (hinput : ¬ m.layer.isInput = true) : p ∈ interior g := by
  obtain ⟨hpo, hho, hlt⟩ := (before_iff_idxOf hg.nodup).mp (hg.forward hn hp)
  have hend := List.idxOf_lt_length_of_mem hho
  refine (mem_interior_iff hg.nodup).mpr ⟨hpo, Nat.pos_of_ne_zero fun h0 => hinput ?_, by omega⟩
  exact hg.first_isInput (position?_eq_zero.mp (position?_eq_some.mpr ⟨hpo, h0⟩)) hm

/-- Every buffer that a call names is declared. -/
theorem Source.Follows.declares {src : Source} {g : Graph} {plan : Plan} (hs : src.Follows g plan)
    (hg : g.WellFormed) (hplan : Partitioned g plan) {c : Call} (hc : c ∈ src.calls) {o : Operand}
    (ho : o ∈ c.operands) : src.Declares o.buffer := by
  have hread : c.reads ∈ g.order.filterMap (reads? g plan) :=
    hs.calls_eq ▸ List.mem_map_of_mem hc
  obtain ⟨h, _, hread⟩ := List.mem_filterMap.mp hread
  obtain ⟨n, hn, hread⟩ := Option.bind_eq_some_iff.mp hread
  have hbuffers : n.preds.map (bufferOf g plan) = c.operands.map Operand.buffer := by
    split at hread
    · contradiction
    · injection hread with hread
      exact congrArg Prod.snd hread
  obtain ⟨p, hp, hbuffer⟩ := List.mem_map.mp (hbuffers ▸ List.mem_map_of_mem ho)
  obtain ⟨m, hm⟩ := contains_iff.mp (hg.pred_live hn hp)
  rw [← hbuffer, bufferOf, hm, Option.any_some]
  split
  · trivial
  · next hinput =>
      -- The operand is the tenant of a pool, and the union of the pool has a member for it.
      have hmem := hplan.perm.mem_iff.mpr (mem_interior_of_mem_preds hg hn hp hm hinput)
      obtain ⟨pool, hpool, hp⟩ := List.mem_flatMap.mp hmem
      obtain ⟨k, hk⟩ := List.mem_iff_getElem?.mp hpool
      refine ⟨⟨k + 1, pool.tenants.map g.nameOf⟩, ?_, ?_, List.mem_map_of_mem hp⟩
      · rw [hs.unions_eq]
        refine List.mem_of_getElem? (i := k) ?_
        rw [List.getElem?_mapIdx, hk, Option.map_some]
      · exact ((hplan.poolIndex_eq p k).mpr ⟨pool, hk, hp⟩).symm

/-- **Pools share out the outputs in between, and the source of a model finds every operand in
memory that it declares.**  No layer reads the last one, so an operand is found in the input of
the model or in a member of the union of its pool. -/
theorem buffers_declared {w w' : Workspace} {plan : Plan} (he : Evolved w.graph)
    (ha : allocate w = .ok plan w') :
    Partitioned w.graph plan ∧
    (∀ last, w.graph.output? = some last → ∀ h n, w.graph.get? h = some n → last ∉ n.preds) ∧
    ∀ t types layer weights code, model t ⟨w.graph, plan, types, layer, weights⟩ = .ok code →
      ∃ src : Source, src.code = code ∧ src.Follows w.graph plan ∧
        ∀ c ∈ src.calls, ∀ o ∈ c.operands, src.Declares o.buffer := by
  have hg := he.wellFormed
  have hplan := Memory.partitioned_of_layout hg.toSequenced (Memory.exists_allocate.mp ⟨w', ha⟩).1
  refine ⟨hplan, fun last hlast h n hn => hg.last_not_mem_preds hlast hn, ?_⟩
  intro t types layer weights code hm
  obtain ⟨src, hcode, hs⟩ := exists_source hm
  exact ⟨src, hcode, hs, fun c hc o ho => hs.declares hg hplan hc ho⟩

def eightBits : QuantRecord :=
  ⟨.integer, 8, 16, some 3, none, some 3, some .floor, some .floor⟩

/-- The graph of an input in fixed point behind which layers compute in floating point, one of
them on the memory of another. -/
def mixed : Graph where
  slots := [
    some ⟨.source "x" [1, 2], some eightBits, [], [1]⟩,
    some ⟨⟨"a", [[1, 2]], [[1, 2]], .float32, .activation .relu⟩, some (.float 32 32), [0], [2]⟩,
    some ⟨⟨"f", [[1, 2]], [[1, 2]], .float32, .flatten⟩, some (.float 32 32), [1], [3, 4]⟩,
    some ⟨⟨"b", [[1, 2]], [[1, 2]], .float32, .activation .relu⟩, some (.float 32 32), [2], [4]⟩,
    some ⟨⟨"out", [[1, 2], [1, 2]], [[1, 2]], .float32, .add .linear⟩, some (.float 32 32),
      [2, 3], []⟩]
  order := [0, 1, 2, 3, 4]

def mixedPlan : Plan where
  pools := [⟨[1, 2], 4⟩, ⟨[3], 4⟩]
  ranges := [(0, ⟨0, 1⟩), (1, ⟨1, 2⟩), (2, ⟨2, 4⟩), (3, ⟨3, 4⟩), (4, ⟨4, 4⟩)]
  overwrites := [(1, 2)]

/-- The graph comes from edits of a valid one. -/
theorem evolved_mixed : Evolved mixed := by
  have hedited : Evolved (history {} [.addInput (.source "x" [1, 2]),
      .insert ⟨"a", [[1, 2]], [[1, 2]], .float32, .activation .relu⟩ [0] [],
      .insert ⟨"f", [[1, 2]], [[1, 2]], .float32, .flatten⟩ [1] [],
      .insert ⟨"b", [[1, 2]], [[1, 2]], .float32, .activation .relu⟩ [2] [],
      .insert ⟨"out", [[1, 2], [1, 2]], [[1, 2]], .float32, .add .linear⟩ [2, 3] []]).graph :=
    evolved_history {} _
  exact ((((hedited.setQuant 0 (some eightBits)).setQuant 1 (some (.float 32 32))).setQuant 2
    (some (.float 32 32))).setQuant 3 (some (.float 32 32))).setQuant 4 (some (.float 32 32))

/-- A network with two number types: the operands of each call and their buffers. -/
theorem buffers_mixed :
    let w : Workspace := ⟨mixed, {}⟩
    Evolved w.graph ∧ (∃ w', allocate w = .ok mixedPlan w') ∧
      ∃ code, model .model ⟨mixed, mixedPlan, ⟨[]⟩, none, []⟩ = .ok code ∧
        ∃ src : Source, src.code = code ∧
          src.unions = [⟨1, ["a", "f"]⟩, ⟨2, ["b"]⟩] ∧
          src.calls.map Call.reads = [("a", [.input]), ("f", [.member 1 "a"]),
            ("b", [.member 1 "f"]), ("out", [.member 1 "f", .member 2 "b"])] ∧
          ∀ c ∈ src.calls, ∀ o ∈ c.operands, src.Declares o.buffer := by
  intro w
  obtain ⟨w', ha⟩ : ∃ w', allocate w = .ok mixedPlan w' :=
    Memory.exists_allocate.mpr ⟨by decide, 16, by decide⟩
  obtain ⟨code, hm⟩ : ∃ code, model .model ⟨mixed, mixedPlan, ⟨[]⟩, none, []⟩ = .ok code := ⟨_, rfl⟩
  obtain ⟨_, _, hsource⟩ := buffers_declared evolved_mixed ha
  obtain ⟨src, hcode, hs, hdeclares⟩ := hsource .model _ _ _ code hm
  refine ⟨evolved_mixed, ⟨w', ha⟩, code, hm, src, hcode, ?_, ?_, hdeclares⟩
  · rw [hs.unions_eq]
    decide
  · rw [hs.calls_eq]
    decide

end NeuralC.C
