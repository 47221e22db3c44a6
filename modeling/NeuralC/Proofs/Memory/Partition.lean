import NeuralC.Proofs.Memory.Demand

/-!
# NeuralC.Proofs.Memory.Partition

The pools of a plan share out the outputs in between.  `Ledger` says how the
pools stand after some placements: a pool has just the outputs for which its
number was noted, in the order in which they were placed.  One placement adds one
output to one pool (`tenantsOf_apply`), so every placement keeps it.

An output is placed once.  So no two pools have an output in common, and the
number of the first pool with an output is the number that was noted for it
(`poolIndex_eq_succ_iff`, `poolIndex_of_mem_layout`).
-/

namespace NeuralC.Memory

open NeuralC.Graph

/-! ## Tenants -/

/-- The number of the pool that an output is placed in. -/
def Placement.index : Placement → Nat
  | .opens index | .reuses index | .overwrites _ index => index

namespace Plan

/-- The outputs in the pool of number `k + 1`; none where there is no such pool. -/
def tenantsOf (p : Plan) (k : Nat) : List Handle := (p.pools[k]?.map Pool.tenants).getD []

variable {p : Plan} {h x : Handle} {range : LiveRange} {i k : Nat}

/-- A layer is a tenant of a pool that exists. -/
theorem mem_tenantsOf :
    x ∈ p.tenantsOf k ↔ ∃ pool, p.pools[k]? = some pool ∧ x ∈ pool.tenants := by
  rw [tenantsOf]
  cases p.pools[k]? <;> simp

/-- A new pool gets the layer, and the other pools stay. -/
theorem tenantsOf_openPool :
    (p.openPool h range).tenantsOf i =
      if i = p.pools.length then p.tenantsOf i ++ [h] else p.tenantsOf i := by
  simp only [tenantsOf, openPool]
  split
  · next hi => simp [hi]
  · next hi =>
      rw [List.getElem?_append]
      split
      · rfl
      · rw [List.getElem?_eq_none (by simp; omega), List.getElem?_eq_none (by omega)]

/-- The pool that is joined gets the layer, and the other pools stay. -/
theorem tenantsOf_joinPool (hk : k < p.pools.length) :
    (p.joinPool (k + 1) h range).tenantsOf i =
      if i = k then p.tenantsOf i ++ [h] else p.tenantsOf i := by
  simp only [tenantsOf, joinPool, Nat.add_sub_cancel, List.getElem?_modify]
  by_cases hi : i = k
  · simp [hi, List.getElem?_eq_getElem hk]
  · simp [hi, Ne.symm hi]

end Plan

/-- A placement adds the output to the pool of its number and leaves the others as they are. -/
theorem tenantsOf_apply {g : Graph} {p : Plan} {n : Node} {range : LiveRange}
    {placement : Placement} (hp : placementOf g p n range = .ok placement) (h : Handle) :
    ∃ k, placement.index = k + 1 ∧ ∀ i, (p.apply h range placement).tenantsOf i =
      if i = k then p.tenantsOf i ++ [h] else p.tenantsOf i := by
  obtain rfl | ⟨j, rfl, hfree⟩ | ⟨q, j, rfl, _, _, _, hq⟩ := placementOf_cases hp
  · exact ⟨p.pools.length, rfl, fun _ => Plan.tenantsOf_openPool⟩
  · obtain ⟨k, pool, rfl, hpool, _⟩ := freePool?_eq_some hfree
    have hk := (List.getElem?_eq_some_iff.mp hpool).1
    exact ⟨k, rfl, fun _ => Plan.tenantsOf_joinPool hk⟩
  · exact ⟨j, rfl, fun _ => Plan.tenantsOf_joinPool (Plan.lt_of_poolIndex hq)⟩

/-! ## Placements and pools -/

/-- The pools have the outputs that placements put into them. -/
structure Ledger (p : Plan) (made : List (Handle × Placement)) : Prop where
  /-- A pool has the outputs for which its number was noted. -/
  noted : ∀ k h, h ∈ p.tenantsOf k ↔ ∃ placement, (h, placement) ∈ made ∧ placement.index = k + 1
  /-- The outputs of a pool stand in the order in which they were placed. -/
  ordered : ∀ k, (p.tenantsOf k).Sublist (made.map Prod.fst)

theorem Ledger.empty (ranges : List (Handle × LiveRange)) :
    Ledger { Plan.empty with ranges := ranges } [] := by
  constructor <;> simp [Plan.tenantsOf, Plan.empty]

/-- One placement keeps the ledger. -/
theorem Ledger.placeOne {g : Graph} {p p' : Plan} {made : List (Handle × Placement)} {h : Handle}
    {placement : Placement} (hl : Ledger p made) (hp : placeOne g p h = .ok (p', placement)) :
    Ledger p' (made ++ [(h, placement)]) := by
  obtain ⟨n, range, _, _, hplace, rfl⟩ := placeOne_cases hp
  obtain ⟨k, hk, htenants⟩ := tenantsOf_apply hplace h
  refine ⟨fun i x => ?_, fun i => ?_⟩
  · have hmem : x ∈ (p.apply h range placement).tenantsOf i ↔
        x ∈ p.tenantsOf i ∨ (i = k ∧ x = h) := by
      rw [htenants]
      split <;> simp_all
    simp only [hmem, hl.noted, List.mem_append, List.mem_singleton, Prod.mk.injEq, or_and_right,
      exists_or]
    refine or_congr_right ⟨?_, ?_⟩
    · rintro ⟨rfl, rfl⟩
      exact ⟨placement, ⟨rfl, rfl⟩, hk⟩
    · rintro ⟨_, ⟨rfl, rfl⟩, hi⟩
      exact ⟨by omega, rfl⟩
  · rw [htenants, List.map_append]
    split
    · exact (hl.ordered i).append (List.Sublist.refl _)
    · exact (hl.ordered i).trans (List.sublist_append_left _ _)

/-- What was placed, in sequence, is what the pools hold. -/
theorem ledger_of_layout {g : Graph} {plan : Plan} (hl : (layout g).2 = .ok plan) :
    Ledger plan (layout g).1 ∧ (layout g).1.map Prod.fst = interior g :=
  layout_induction (fun _ _ _ _ _ hp => hp.placeOne) Ledger.empty hl

section Plans

variable {g : Graph} {plan : Plan} (hl : (layout g).2 = .ok plan) {h : Handle} {k : Nat}
  {pool : Pool}

include hl

/-- The outputs of a pool are outputs in between, in order. -/
theorem tenants_sublist (hp : pool ∈ plan.pools) : pool.tenants.Sublist (interior g) := by
  obtain ⟨k, hk⟩ := List.mem_iff_getElem?.mp hp
  have hsub := (ledger_of_layout hl).1.ordered k
  rwa [(ledger_of_layout hl).2, Plan.tenantsOf, hk] at hsub

variable (hnd : g.order.Nodup)

include hnd

/-- An output has the number of a pool exactly when it lives in that pool. -/
theorem poolIndex_eq_succ_iff :
    plan.poolIndex h = k + 1 ↔ ∃ pool, plan.pools[k]? = some pool ∧ h ∈ pool.tenants := by
  refine ⟨Plan.exists_of_poolIndex, fun hk => ?_⟩
  obtain ⟨hledger, hmade⟩ := ledger_of_layout hl
  have hne : plan.poolIndex h ≠ 0 := by
    obtain ⟨pool, hpool, hh⟩ := hk
    exact fun h0 => Plan.poolIndex_eq_zero.mp h0 pool (List.mem_of_getElem? hpool) hh
  obtain ⟨j, hj⟩ := Nat.exists_eq_succ_of_ne_zero hne
  -- The output was placed once, so the two pools have the same number.
  obtain ⟨pk, hpk, hindexk⟩ := (hledger.noted k h).mp (Plan.mem_tenantsOf.mpr hk)
  obtain ⟨pj, hpj, hindexj⟩ := (hledger.noted j h).mp
    (Plan.mem_tenantsOf.mpr (Plan.exists_of_poolIndex hj))
  have honce := List.inj_on_of_nodup_map (hmade ▸ nodup_interior hnd) hpk hpj rfl
  injection honce with _ honce
  rw [hj, ← hindexk, honce, hindexj]

/-- The tenants of a pool are listed in the order of the graph. -/
theorem pairwise_tenants (hp : pool ∈ plan.pools) :
    pool.tenants.Pairwise fun a b => g.order.idxOf a < g.order.idxOf b := by
  rw [List.pairwise_iff_forall_sublist]
  intro a b hab
  have hbefore : g.Before a b := hab.trans ((tenants_sublist hl hp).trans (interior_sublist g))
  exact ((before_iff_idxOf hnd).mp hbefore).2.2

/-- Every output in between is in one pool, and nothing else is in any. -/
theorem perm_tenants : (plan.pools.flatMap Pool.tenants).Perm (interior g) := by
  have ht := (placed_of_layout hnd hl).1
  have hdisjoint : (plan.pools.flatMap Pool.tenants).Nodup := by
    refine List.nodup_flatMap.mpr ⟨fun pool hp => ?_, ?_⟩
    · exact (nodup_interior hnd).sublist (tenants_sublist hl hp)
    · rw [List.pairwise_iff_getElem]
      intro i j hi hj hij h hhi hhj
      have hindexi := (poolIndex_eq_succ_iff hl hnd).mpr ⟨_, List.getElem?_eq_getElem hi, hhi⟩
      have hindexj := (poolIndex_eq_succ_iff hl hnd).mpr ⟨_, List.getElem?_eq_getElem hj, hhj⟩
      omega
  rw [List.perm_ext_iff_of_nodup hdisjoint (nodup_interior hnd)]
  intro h
  rw [ht.mem_iff, Ne, Plan.poolIndex_eq_zero, List.mem_flatMap]
  push Not
  rfl

/-- The number that was noted when an output was placed is that of its pool. -/
theorem poolIndex_of_mem_layout {placement : Placement} (hm : (h, placement) ∈ (layout g).1) :
    placement.index = plan.poolIndex h := by
  obtain ⟨hledger, hmade⟩ := ledger_of_layout hl
  have hh : h ∈ interior g := hmade ▸ List.mem_map_of_mem hm
  obtain ⟨k, hk⟩ := Nat.exists_eq_succ_of_ne_zero ((placed_of_layout hnd hl).1.mem_iff.mp hh)
  obtain ⟨other, hother, hindex⟩ := (hledger.noted k h).mp
    (Plan.mem_tenantsOf.mpr (Plan.exists_of_poolIndex hk))
  have honce := List.inj_on_of_nodup_map (hmade ▸ nodup_interior hnd) hm hother rfl
  injection honce with _ honce
  rw [honce, hindex, hk]

/-- The ends of the graph are the caller's memory. -/
theorem poolIndex_eq_zero_of_ends (hh : g.input? = some h ∨ g.output? = some h) :
    plan.poolIndex h = 0 := by
  refine (placed_of_layout hnd hl).1.poolIndex_eq_zero fun hmem => ?_
  obtain ⟨_, hpos, hlt⟩ := (mem_interior_iff hnd).mp hmem
  rcases hh with hfirst | hlast
  · rw [(position?_eq_some.mp (position?_eq_zero.mpr hfirst)).2] at hpos
    exact Nat.lt_irrefl 0 hpos
  · have hlen := idxOf_output hnd hlast
    omega

omit hnd

/-- A pool is kept as long as any of its outputs. -/
theorem max_keepUntil (hg : g.Sequenced) (hp : pool ∈ plan.pools) :
    (pool.tenants.filterMap fun h => (plan.range? h).map LiveRange.keepUntil).max? =
      some pool.liveUntil := by
  obtain ⟨hk, hranges⟩ := packed_of_layout hg hl
  have hrange : ∀ h ∈ pool.tenants, (plan.range? h).map LiveRange.keepUntil =
      some (lastRead g h) := by
    intro h hh
    have hi := (tenants_sublist hl hp).subset hh
    rw [hranges h (mem_order_of_mem_interior hi), Option.map_some]
  obtain ⟨i, hi⟩ := List.mem_iff_getElem?.mp hp
  rw [List.max?_eq_some_iff]
  constructor
  · obtain ⟨x, hx, hlast⟩ := hk.attained hi
    obtain ⟨other, hother, hmem⟩ := Plan.exists_of_poolIndex hx
    rw [hi] at hother
    injection hother with hother
    subst hother
    exact List.mem_filterMap.mpr ⟨x, hmem, by rw [hrange x hmem, hlast]⟩
  · intro u hu
    obtain ⟨x, hx, hu⟩ := List.mem_filterMap.mp hu
    rw [hrange x hx] at hu
    injection hu with hu
    exact hu ▸ hk.lastRead_le hp hx

end Plans

/-- How the pools of a plan share out the outputs in between. -/
structure Partitioned (g : Graph) (plan : Plan) : Prop where
  /-- Every output in between is in one pool, once. -/
  perm : (plan.pools.flatMap Pool.tenants).Perm (interior g)
  /-- The outputs of a pool stand in the order of their layers. -/
  ordered : ∀ pool ∈ plan.pools,
    pool.tenants.Pairwise fun a b => g.order.idxOf a < g.order.idxOf b
  /-- An output has the number of a pool exactly when it is in that pool. -/
  poolIndex_eq : ∀ h k,
    plan.poolIndex h = k + 1 ↔ ∃ pool, plan.pools[k]? = some pool ∧ h ∈ pool.tenants
  /-- That number was noted when the output was placed. -/
  noted : (layout g).1.map (fun m => (m.1, m.2.index)) =
    (interior g).map fun h => (h, plan.poolIndex h)
  /-- The first and the last output are in none. -/
  ends : ∀ h, g.input? = some h ∨ g.output? = some h → plan.poolIndex h = 0
  /-- A pool is kept as long as any of its outputs, and no longer. -/
  liveUntil_eq : ∀ pool ∈ plan.pools,
    (pool.tenants.filterMap fun h => (plan.range? h).map LiveRange.keepUntil).max? =
      some pool.liveUntil

/-- A layout shares out the layers in between. -/
theorem partitioned_of_layout {g : Graph} {plan : Plan} (hg : g.Sequenced)
    (hl : (layout g).2 = .ok plan) : Partitioned g plan where
  perm := perm_tenants hl hg.nodup
  ordered _ := pairwise_tenants hl hg.nodup
  poolIndex_eq _ _ := poolIndex_eq_succ_iff hl hg.nodup
  noted := by
    rw [← (ledger_of_layout hl).2, List.map_map]
    refine List.map_congr_left fun m hm => ?_
    rw [Function.comp_apply, poolIndex_of_mem_layout hl hg.nodup hm]
  ends _ := poolIndex_eq_zero_of_ends hl hg.nodup
  liveUntil_eq _ := max_keepUntil hl hg

end NeuralC.Memory
