import NeuralC.Proofs.Memory.Demand
import NeuralC.Proofs.Size

/-!
# NeuralC.Proofs.Memory.Refusal

When planning fails.  Only a layer that should write over an operand can be
refused a place, and only for its operands: it has not exactly one, or it has the
input of the graph, which is the caller's memory.  Any other operand stands in
front of the layer, so it has a pool by the time the layer is placed
(`Tenancy.poolIndex_operand`).

The walk stops at the first layer that is `Stranded`, and passes when there is
none (`Tenancy.placeAll_cases`).  What can still go wrong then is the sum of the
bytes, which has to stay below the limit of sizes (`Plan.Fits`).
-/

namespace NeuralC.Memory

open NeuralC.Graph

/-- A layer that cannot write over its operand: neither the first that is placed nor the last of
the graph, and with a number of operands other than one or with the input of the graph. -/
structure Stranded (g : Graph) (h : Handle) (n : Node) : Prop where
  get?_eq : g.get? h = some n
  kind_eq : n.layer.kind = .flatten
  behind : 2 ≤ g.order.idxOf h
  inFront : g.order.idxOf h + 1 < g.order.length
  operands : n.preds.length ≠ 1 ∨ ∃ first ∈ n.preds, g.input? = some first

/-- What is said about such a layer. -/
def strandedCause (g : Graph) (n : Node) : AllocationCause :=
  if n.preds.length = 1 then .overwriteUnplaced g.inputName else .overwriteInputs n.preds.length

def strandedFailure (g : Graph) (n : Node) : Failure :=
  .reported (.allocation n.name (strandedCause g n))

/-! ## One placement -/

section Step

variable {g : Graph} {p : Plan} {done rest : List Handle} {h : Handle} {n : Node}
  (hg : g.Sequenced) (ht : Tenancy g p done) (hs : interior g = done ++ h :: rest)
  (hn : g.get? h = some n)

include hg ht hs hn

/-- Of the operands of a layer, only the input of the graph has no pool. -/
theorem Tenancy.poolIndex_operand {q : Handle} (hq : q ∈ n.preds) :
    p.poolIndex q = 0 ↔ g.input? = some q := by
  obtain ⟨hqo, _, hlt⟩ := (before_iff_idxOf hg.nodup).mp (hg.forward hn hq)
  obtain ⟨_, _, hend⟩ := (mem_interior_iff hg.nodup).mp (hs ▸ List.mem_append_right _
    List.mem_cons_self : h ∈ interior g)
  have hplace : g.input? = some q ↔ g.order.idxOf q = 0 := by
    rw [← position?_eq_zero, position?_eq_some, and_iff_right hqo]
  rw [hplace]
  constructor
  · intro h0
    by_contra hne
    have hqi : q ∈ interior g := (mem_interior_iff hg.nodup).mpr ⟨hqo, by omega, by omega⟩
    exact ht.mem_iff.mp ((idxOf_lt_iff hg.nodup hs hqi).mp hlt) h0
  · intro h0
    refine ht.poolIndex_eq_zero fun hmem => ?_
    have hqi : q ∈ interior g := hs ▸ List.mem_append_left _ hmem
    exact absurd ((mem_interior_iff hg.nodup).mp hqi).2.1 (by omega)

/-- A stranded layer is refused a place, with what is said about it. -/
theorem Tenancy.placementOf_stranded (hstranded : Stranded g h n) :
    placementOf g p n ⟨g.order.idxOf h, lastRead g h⟩ = .error (strandedFailure g n) := by
  have hcreated : g.order.idxOf h ≠ 1 := by
    have := hstranded.behind
    omega
  have hover : n.layer.overwritesInput = true := by
    rw [Layer.overwritesInput, hstranded.kind_eq]
  rw [placementOf, if_neg hcreated, if_pos hover]
  split
  · next q hpreds =>
      have hfirst : g.input? = some q := by
        rcases hstranded.operands with hlen | ⟨first, hmem, hinput⟩
        · simp [hpreds] at hlen
        · rw [hpreds, List.mem_singleton] at hmem
          exact hmem ▸ hinput
      have hq : q ∈ n.preds := by simp [hpreds]
      obtain ⟨m, hm⟩ := contains_iff.mp (hg.pred_live hn hq)
      have hname : g.inputName = m.name := by simp [inputName, hfirst, nameOf, hm]
      rw [node_eq_ok.mpr hm, (ht.poolIndex_operand hg hs hn hq).mpr hfirst, strandedFailure,
        strandedCause, hpreds, List.length_singleton, if_pos rfl, hname]
      rfl
  · next hne =>
      have hlen : n.preds.length ≠ 1 := fun hone => by
        obtain ⟨q, hq⟩ := List.length_eq_one_iff.mp hone
        exact hne q hq
      rw [strandedFailure, strandedCause, if_neg hlen]

/-- Any other layer gets a place. -/
theorem Tenancy.exists_placementOf (hstranded : ¬ Stranded g h n) :
    ∃ placement, placementOf g p n ⟨g.order.idxOf h, lastRead g h⟩ = .ok placement := by
  obtain ⟨_, hpos, hend⟩ := (mem_interior_iff hg.nodup).mp (hs ▸ List.mem_append_right _
    List.mem_cons_self : h ∈ interior g)
  unfold placementOf
  split
  · exact ⟨_, rfl⟩
  · next hcreated =>
      dsimp only at hcreated
      split
      · next hover =>
          have hkind : n.layer.kind = .flatten := by
            unfold Layer.overwritesInput at hover
            split at hover
            · assumption
            · contradiction
          have hoperands : ¬ (n.preds.length ≠ 1 ∨ ∃ first ∈ n.preds, g.input? = some first) :=
            fun hbad => hstranded ⟨hn, hkind, by omega, hend, hbad⟩
          push Not at hoperands
          obtain ⟨hone, hfirst⟩ := hoperands
          obtain ⟨q, hpreds⟩ := List.length_eq_one_iff.mp hone
          have hq : q ∈ n.preds := by simp [hpreds]
          obtain ⟨m, hm⟩ := contains_iff.mp (hg.pred_live hn hq)
          obtain ⟨i, hi⟩ := Nat.exists_eq_succ_of_ne_zero fun h0 =>
            hfirst q hq ((ht.poolIndex_operand hg hs hn hq).mp h0)
          simp only [hpreds, node_eq_ok.mpr hm, hi]
          exact ⟨_, rfl⟩
      · split
        · exact ⟨_, rfl⟩
        · exact ⟨_, rfl⟩

theorem Tenancy.placeOne_stranded (hr : p.range? h = some ⟨g.order.idxOf h, lastRead g h⟩)
    (hstranded : Stranded g h n) : Memory.placeOne g p h = .error (strandedFailure g n) := by
  rw [placeOne_eq_map hn hr, ht.placementOf_stranded hg hs hn hstranded, Except.map]

theorem Tenancy.exists_placeOne (hr : p.range? h = some ⟨g.order.idxOf h, lastRead g h⟩)
    (hstranded : ¬ Stranded g h n) :
    ∃ p' placement, Memory.placeOne g p h = .ok (p', placement) := by
  obtain ⟨placement, hp⟩ := ht.exists_placementOf hg hs hn hstranded
  exact ⟨_, placement, by rw [placeOne_eq_map hn hr, hp, Except.map]⟩

end Step

/-! ## All placements -/

/-- Among layers, `h` is the first that is stranded. -/
def FirstStranded (g : Graph) (hs : List Handle) (h : Handle) (n : Node) : Prop :=
  Stranded g h n ∧ ∃ xs ys, hs = xs ++ h :: ys ∧ ∀ k ∈ xs, ∀ m, ¬ Stranded g k m

/-- A walk places all outputs, or stops at the first layer that is stranded. -/
theorem Tenancy.placeAll_cases {g : Graph} (hg : g.Sequenced) {p : Plan} {done hs : List Handle}
    (ht : Tenancy g p done) (hsplit : interior g = done ++ hs)
    (hr : ∀ h ∈ hs, p.range? h = some ⟨g.order.idxOf h, lastRead g h⟩) :
    ((∀ h ∈ hs, ∀ n, ¬ Stranded g h n) ∧ ∃ plan, (Memory.placeAll g p hs).2 = .ok plan) ∨
      ∃ h n, FirstStranded g hs h n ∧
        (Memory.placeAll g p hs).2 = .error (strandedFailure g n) := by
  induction hs generalizing p done with
  | nil => exact .inl ⟨by simp, p, rfl⟩
  | cons h hs ih =>
      have hh : h ∈ interior g := hsplit ▸ List.mem_append_right _ List.mem_cons_self
      obtain ⟨n, hn⟩ := hg.exists_get? (mem_order_of_mem_interior hh)
      have hrange := hr h List.mem_cons_self
      by_cases hstranded : Stranded g h n
      · refine .inr ⟨h, n, ⟨hstranded, [], hs, rfl, by simp⟩, ?_⟩
        rw [Memory.placeAll, ht.placeOne_stranded hg hsplit hn hrange hstranded]
      · obtain ⟨p', placement, hone⟩ := ht.exists_placeOne hg hsplit hn hrange hstranded
        have hhead : ∀ m, ¬ Stranded g h m := by
          intro m hm
          have hnm := hm.get?_eq
          rw [hn] at hnm
          injection hnm with hnm
          exact hstranded (hnm ▸ hm)
        have hfresh : h ∉ done := fun hmem => by
          have hnd := nodup_interior hg.nodup
          rw [hsplit] at hnd
          exact List.disjoint_of_nodup_append hnd hmem List.mem_cons_self
        have hext := ht.placeOne hfresh hrange hone
        have hr' : ∀ k ∈ hs, p'.range? k = some ⟨g.order.idxOf k, lastRead g k⟩ := by
          intro k hk
          rw [Plan.range?, hext.ranges_eq]
          exact hr k (List.mem_cons_of_mem h hk)
        have hwalk : (Memory.placeAll g p (h :: hs)).2 = (Memory.placeAll g p' hs).2 := by
          rw [Memory.placeAll, hone]
        rw [hwalk]
        rcases ih hext.tenancy (by simpa using hsplit) hr' with
          ⟨hnone, hok⟩ | ⟨k, m, ⟨hk, xs, ys, hxs, hbefore⟩, herror⟩
        · exact .inl ⟨List.forall_mem_cons.mpr ⟨hhead, hnone⟩, hok⟩
        · refine .inr ⟨k, m, ⟨hk, h :: xs, ys, by rw [hxs, List.cons_append], ?_⟩, herror⟩
          exact List.forall_mem_cons.mpr ⟨hhead, hbefore⟩

/-! ## Graphs -/

/-- The plan places outputs of the graph only. -/
def Plan.Within (plan : Plan) (g : Graph) : Prop :=
  ∀ pool ∈ plan.pools, ∀ h ∈ pool.tenants, g.contains h = true

/-! ## Sizes -/

/-- The exact number of bytes of an output. -/
def outputSize (g : Graph) (h : Handle) : Nat :=
  ((g.get? h).map fun n => n.layer.outputElements * elementBytes n).getD 0

/-- The exact number of bytes of a pool: those of its largest tenant. -/
def poolSize (g : Graph) (pool : Pool) : Nat := (pool.tenants.map (outputSize g)).max?.getD 0

/-- The exact number of bytes of all pools. -/
def Plan.need (plan : Plan) (g : Graph) : Nat := (plan.pools.map (poolSize g)).sum

/-- The elements of an output can be counted. -/
def Countable (g : Graph) (h : Handle) : Prop :=
  ∀ n, g.get? h = some n → Shape.Counted (n.layer.outputShape.drop 1)

/-- The bytes of the plan can be computed: the elements of all outputs can be counted, and all
pools together are not too large. -/
structure Plan.Fits (plan : Plan) (g : Graph) : Prop where
  countable : ∀ pool ∈ plan.pools, ∀ h ∈ pool.tenants, Countable g h
  need_lt : plan.need g < sizeLimit

/-- The bytes of an output are computed when its elements can be counted and they are a size. -/
theorem outputBytes_cases {g : Graph} {h : Handle} (hh : g.contains h = true) :
    ((Countable g h ∧ outputSize g h < sizeLimit) ∧
        (do outputBytes (← g.node h)) = .ok (outputSize g h)) ∨
      (¬(Countable g h ∧ outputSize g h < sizeLimit) ∧
        (do outputBytes (← g.node h)) = .error .overflow) := by
  obtain ⟨n, hn⟩ := contains_iff.mp hh
  have hcountable : Countable g h ↔ Shape.Counted (n.layer.outputShape.drop 1) := by
    simp [Countable, hn]
  have hsize : outputSize g h = n.layer.outputElements * elementBytes n := by simp [outputSize, hn]
  rw [hcountable, hsize, node_eq_ok.mpr hn]
  change (_ ∧ outputBytes n = _) ∨ (_ ∧ outputBytes n = _)
  rw [outputBytes, Shape.countSample]
  by_cases hshape : Shape.Counted (n.layer.outputShape.drop 1)
  · rw [Shape.count_of_counted hshape]
    rcases Nat.lt_or_ge (n.layer.outputElements * elementBytes n) sizeLimit with hlt | hge
    · exact .inl ⟨⟨hshape, hlt⟩, bounded_of_lt hlt⟩
    · exact .inr ⟨fun hfits => Nat.not_lt.mpr hge hfits.2, bounded_of_le hge⟩
  · rw [Shape.count_of_not_counted hshape]
    exact .inr ⟨fun hfits => hshape hfits.1, rfl⟩

/-- Where each of several sizes is found or overflows, so are they together. -/
theorem mapM_size_cases {α : Type} {f : α → Except Failure Nat} {size : α → Nat} {Good : α → Prop}
    {as : List α}
    (hf : ∀ a ∈ as, (Good a ∧ f a = .ok (size a)) ∨ (¬Good a ∧ f a = .error .overflow)) :
    ((∀ a ∈ as, Good a) ∧ as.mapM f = .ok (as.map size)) ∨
      ((¬∀ a ∈ as, Good a) ∧ as.mapM f = .error .overflow) := by
  induction as with
  | nil => exact .inl ⟨by simp, rfl⟩
  | cons a as ih =>
      obtain ⟨hfirst, hrest⟩ := List.forall_mem_cons.mp hf
      rw [List.mapM_cons, List.forall_mem_cons]
      rcases hfirst with ⟨hgood, hok⟩ | ⟨hbad, herror⟩
      · rw [hok]
        rcases ih hrest with ⟨hall, hoks⟩ | ⟨hnot, herrors⟩
        · rw [hoks]
          exact .inl ⟨⟨hgood, hall⟩, rfl⟩
        · rw [herrors]
          exact .inr ⟨fun h => hnot h.2, rfl⟩
      · rw [herror]
        exact .inr ⟨fun h => hbad h.1, rfl⟩

/-- The bytes of a pool are computed when those of all its tenants are. -/
theorem poolBytes_cases {g : Graph} {pool : Pool}
    (hlive : ∀ h ∈ pool.tenants, g.contains h = true) :
    ((∀ h ∈ pool.tenants, Countable g h ∧ outputSize g h < sizeLimit) ∧
        poolBytes g pool = .ok (poolSize g pool)) ∨
      ((¬∀ h ∈ pool.tenants, Countable g h ∧ outputSize g h < sizeLimit) ∧
        poolBytes g pool = .error .overflow) := by
  rw [poolBytes]
  rcases mapM_size_cases fun h hh => outputBytes_cases (hlive h hh) with
    ⟨hall, hok⟩ | ⟨hnot, herror⟩
  · rw [hok]
    exact .inl ⟨hall, rfl⟩
  · rw [herror]
    exact .inr ⟨hnot, rfl⟩

/-- A pool has room for each of its tenants. -/
theorem outputSize_le_poolSize {g : Graph} {pool : Pool} {h : Handle} (hh : h ∈ pool.tenants) :
    outputSize g h ≤ poolSize g pool := by
  have hmem : outputSize g h ∈ pool.tenants.map (outputSize g) := List.mem_map_of_mem hh
  rw [poolSize]
  cases hmax : (pool.tenants.map (outputSize g)).max? with
  | none =>
      rw [List.max?_eq_none_iff.mp hmax] at hmem
      contradiction
  | some size => exact (List.max?_eq_some_iff.mp hmax).2 _ hmem

/-- Going on from a sum of bytes with more pools. -/
theorem foldlM_poolBytes {g : Graph} {pools : List Pool}
    (hlive : ∀ pool ∈ pools, ∀ h ∈ pool.tenants, g.contains h = true) {total : Nat}
    (htotal : total < sizeLimit) :
    (((∀ pool ∈ pools, ∀ h ∈ pool.tenants, Countable g h) ∧
          total + (pools.map (poolSize g)).sum < sizeLimit) ∧
        pools.foldlM (fun total pool => do bounded (total + (← poolBytes g pool))) total =
          .ok (total + (pools.map (poolSize g)).sum)) ∨
      (¬((∀ pool ∈ pools, ∀ h ∈ pool.tenants, Countable g h) ∧
          total + (pools.map (poolSize g)).sum < sizeLimit) ∧
        pools.foldlM (fun total pool => do bounded (total + (← poolBytes g pool))) total =
          .error .overflow) := by
  induction pools generalizing total with
  | nil => exact .inl ⟨⟨by simp, by simpa using htotal⟩, rfl⟩
  | cons pool pools ih =>
      obtain ⟨hfirst, hrest⟩ := List.forall_mem_cons.mp hlive
      rw [List.foldlM_cons, List.forall_mem_cons, List.map_cons, List.sum_cons, ← Nat.add_assoc]
      rcases poolBytes_cases hfirst with ⟨hall, hok⟩ | ⟨hnot, herror⟩
      · rw [hok]
        have hcountable : ∀ h ∈ pool.tenants, Countable g h := fun h hh => (hall h hh).1
        rcases Nat.lt_or_ge (total + poolSize g pool) sizeLimit with hlt | hge
        · have hstep : (do bounded (total + (← .ok (poolSize g pool)))) =
              (.ok (total + poolSize g pool) : Except Failure Nat) := bounded_of_lt hlt
          rw [hstep, and_iff_right hcountable]
          exact ih hrest hlt
        · have hstep : (do bounded (total + (← .ok (poolSize g pool)))) =
              (.error .overflow : Except Failure Nat) := bounded_of_le hge
          rw [hstep]
          exact .inr ⟨fun h => by omega, rfl⟩
      · rw [herror]
        refine .inr ⟨fun h => hnot fun k hk => ⟨h.1.1 k hk, ?_⟩, rfl⟩
        have hle : outputSize g k ≤ poolSize g pool := outputSize_le_poolSize hk
        omega

/-- The bytes of a plan of outputs of the graph are found where they can be computed. -/
theorem footprint_cases {g : Graph} {plan : Plan} (hplan : plan.Within g) :
    (plan.Fits g ∧ footprint g plan = .ok (plan.need g)) ∨
      (¬plan.Fits g ∧ footprint g plan = .error .overflow) := by
  have hzero : 0 < sizeLimit := by decide
  rcases foldlM_poolBytes hplan hzero with ⟨⟨hcountable, hneed⟩, hok⟩ | ⟨hnot, herror⟩
  · rw [Nat.zero_add] at hneed hok
    exact .inl ⟨⟨hcountable, hneed⟩, hok⟩
  · rw [Nat.zero_add] at hnot
    exact .inr ⟨fun hfits => hnot ⟨hfits.countable, hfits.need_lt⟩, herror⟩

/-! ## Planning -/

section Graphs

variable {g : Graph} (hg : g.Sequenced)

include hg

/-- All outputs of a graph have ranges. -/
theorem exists_liveness : ∃ ranges, liveness g = .ok ranges := by
  refine exists_mapM_eq_ok fun x hx => ?_
  obtain ⟨n, hn⟩ := hg.exists_get? ((List.mem_zipIdx' hx).2 ▸ List.getElem_mem _ : x.1 ∈ g.order)
  exact ⟨_, bind_eq_ok.mpr ⟨n, node_eq_ok.mpr hn, rfl⟩⟩

/-- A graph has a plan, or a first layer that is stranded. -/
theorem layout_cases :
    ((∀ h ∈ interior g, ∀ n, ¬ Stranded g h n) ∧ ∃ plan, (layout g).2 = .ok plan) ∨
      ∃ h n, FirstStranded g (interior g) h n ∧ (layout g).2 = .error (strandedFailure g n) := by
  obtain ⟨ranges, hranges⟩ := exists_liveness hg
  simp only [layout, hranges]
  exact Tenancy.empty.placeAll_cases hg (List.nil_append _).symm fun h hh =>
    range?_of_liveness hranges rfl (mem_order_of_mem_interior hh)

/-- The outputs that a plan places are outputs of the graph. -/
theorem within_of_layout {plan : Plan} (hl : (layout g).2 = .ok plan) : plan.Within g := by
  intro pool hp h hh
  obtain ⟨ht, _⟩ := placed_of_layout hg.nodup hl
  have hne : plan.poolIndex h ≠ 0 := fun h0 => Plan.poolIndex_eq_zero.mp h0 pool hp hh
  exact hg.mem_order.mp (mem_order_of_mem_interior (ht.mem_iff.mpr hne))

theorem Stranded.mem_interior {h : Handle} {n : Node} (hs : Stranded g h n) : h ∈ interior g :=
  (mem_interior_iff hg.nodup).mpr
    ⟨hg.mem_of_get? hs.get?_eq, Nat.lt_of_lt_of_le Nat.two_pos hs.behind, hs.inFront⟩

/-- The first stranded layer stands in front of all others. -/
theorem FirstStranded.idxOf_le {h k : Handle} {n m : Node}
    (hf : FirstStranded g (interior g) h n) (hk : Stranded g k m) :
    g.order.idxOf h ≤ g.order.idxOf k := by
  obtain ⟨_, xs, ys, hs, hbefore⟩ := hf
  by_contra hlt
  have hmem := (idxOf_lt_iff hg.nodup hs (hk.mem_interior hg)).mp (Nat.lt_of_not_le hlt)
  exact hbefore k hmem m hk

end Graphs

/-- Where there is no layout, planning stops with its failure. -/
theorem exists_allocate_error {w : Workspace} {f : Failure} (hl : (layout w.graph).2 = .error f) :
    ∃ w', allocate w = .error f w' := by
  obtain ⟨v, hv⟩ := exists_notePlacements w.graph (layout w.graph).1 w
  refine ⟨v, ?_⟩
  simp only [allocate, Work.bind_apply, Work.graph_apply, hv, hl, Work.attempt_error_apply]

/-- Where the bytes of a plan cannot be computed, planning stops with that. -/
theorem exists_allocate_overflow {w : Workspace} {plan : Plan} {f : Failure}
    (hl : (layout w.graph).2 = .ok plan) (hb : footprint w.graph plan = .error f) :
    ∃ w', allocate w = .error f w' := by
  obtain ⟨v, hv⟩ := exists_notePlacements w.graph (layout w.graph).1 w
  refine ⟨v, ?_⟩
  simp only [allocate, Work.bind_apply, Work.graph_apply, hv, hl, Work.attempt_ok,
    Work.pure_apply, hb, Work.attempt_error_apply]

/-- A graph has a plan that is allocated, a first layer that is stranded, or a plan whose bytes
cannot be computed. -/
theorem allocate_cases {w : Workspace} (hg : w.graph.Sequenced) :
    ((∀ h n, ¬Stranded w.graph h n) ∧ ∃ plan w', (layout w.graph).2 = .ok plan ∧
        plan.Fits w.graph ∧ allocate w = .ok plan w') ∨
      (∃ h n w', Stranded w.graph h n ∧
        (∀ k m, Stranded w.graph k m → w.graph.order.idxOf h ≤ w.graph.order.idxOf k) ∧
        allocate w = .error (strandedFailure w.graph n) w') ∨
      ((∀ h n, ¬Stranded w.graph h n) ∧ ∃ plan w', (layout w.graph).2 = .ok plan ∧
        ¬plan.Fits w.graph ∧ allocate w = .error .overflow w') := by
  rcases layout_cases hg with ⟨hnone, plan, hl⟩ | ⟨h, n, hfirst, hl⟩
  · have hstranded : ∀ h n, ¬Stranded w.graph h n :=
      fun h n hs => hnone h (hs.mem_interior hg) n hs
    rcases footprint_cases (within_of_layout hg hl) with ⟨hfits, hb⟩ | ⟨hfits, hb⟩
    · obtain ⟨w', ha⟩ := exists_allocate.mpr ⟨hl, _, hb⟩
      exact .inl ⟨hstranded, plan, w', hl, hfits, ha⟩
    · obtain ⟨w', ha⟩ := exists_allocate_overflow hl hb
      exact .inr (.inr ⟨hstranded, plan, w', hl, hfits, ha⟩)
  · obtain ⟨w', ha⟩ := exists_allocate_error hl
    exact .inr (.inl ⟨h, n, w', hfirst.1, fun k m hk => hfirst.idxOf_le hg hk, ha⟩)

/-- **Planning is refused exactly where a layer cannot write over its operand**, and the report
names the first such layer.  The one other way for it to fail is a plan whose bytes cannot be
computed. -/
theorem allocate_fails_iff {w : Workspace} (hr : Reachable w.graph) :
    ((∃ d w', allocate w = .error (.reported d) w') ↔ ∃ h n, Stranded w.graph h n) ∧
      (∀ d w', allocate w = .error (.reported d) w' → ∃ h n, Stranded w.graph h n ∧
        (∀ k m, Stranded w.graph k m → w.graph.order.idxOf h ≤ w.graph.order.idxOf k) ∧
        d = .allocation n.name (strandedCause w.graph n)) ∧
      ∀ f w', allocate w = .error f w' → (∃ d, f = .reported d) ∨
        f = .overflow ∧ ∃ plan, (layout w.graph).2 = .ok plan ∧ ¬plan.Fits w.graph := by
  rcases allocate_cases hr.linked.toSequenced with
    ⟨hnone, plan, w', hl, hfits, ha⟩ | ⟨h, n, w', hs, hfirst, ha⟩ | ⟨hnone, plan, w', hl, hfits, ha⟩
  · simp [ha, hnone]
  · simp only [ha, EStateM.Result.error.injEq]
    refine ⟨iff_of_true ⟨_, w', rfl, rfl⟩ ⟨h, n, hs⟩, ?_, ?_⟩
    · rintro d v ⟨hd, -⟩
      exact ⟨h, n, hs, hfirst, (Failure.reported.inj hd).symm⟩
    · rintro f v ⟨rfl, -⟩
      exact .inl ⟨_, rfl⟩
  · simp only [ha, EStateM.Result.error.injEq, reduceCtorEq, false_and, exists_false,
      false_iff, false_implies, implies_true, true_and]
    refine ⟨?_, ?_⟩
    · rintro ⟨h, n, hs⟩
      exact hnone h n hs
    rintro f v ⟨rfl, -⟩
    exact .inr ⟨rfl, plan, hl, hfits⟩

/-- Calls that build three layers to write over an operand: the first one placed, one that reads
the input and one with two operands. -/
def strandedTwice : List Edit := [
  .addInput (.source "x" [1, 2]),
  .insert ⟨"f", [[1, 2]], [[2]], .float32, .flatten⟩ [0] [],
  .insert ⟨"s", [[1, 2]], [[2]], .float32, .flatten⟩ [0] [],
  .insert ⟨"g", [[2], [2]], [[2]], .float32, .flatten⟩ [1, 1] [],
  .insert ⟨"out", [[2], [2]], [[2]], .float32, .add .linear⟩ [2, 3] []]

/-- Of two layers without a place the first is named, and the one placed first is not. -/
theorem allocate_fails_strandedTwice :
    let w := history {} strandedTwice
    Reachable w.graph ∧ ∃ w', allocate w =
      .error (.reported (.allocation "s" (.overwriteUnplaced "x"))) w' := by
  intro w
  have hr : Reachable w.graph := reachable_history {} strandedTwice
  have hs : Stranded w.graph 2 ⟨⟨"s", [[1, 2]], [[2]], .float32, .flatten⟩, none, [0], [4]⟩ :=
    ⟨by decide, rfl, by decide, by decide, .inr ⟨0, by decide, by decide⟩⟩
  obtain ⟨hiff, hnames, -⟩ := allocate_fails_iff hr
  obtain ⟨d, w', ha⟩ := hiff.mpr ⟨2, _, hs⟩
  obtain ⟨h, n, hn, hleast, rfl⟩ := hnames d w' ha
  have hh : h = 2 := by
    refine (List.idxOf_inj (hr.linked.mem_of_get? hn.get?_eq)).mp ?_
    exact Nat.le_antisymm (hleast 2 _ hs) hn.behind
  have hnode := hn.get?_eq
  rw [hh, hs.get?_eq] at hnode
  injection hnode with hnode
  subst hnode
  exact ⟨hr, w', ha⟩

end NeuralC.Memory
