import NeuralC.Memory.Plan
import NeuralC.Proofs.Graph.WellFormed
import NeuralC.Proofs.Work

/-!
# NeuralC.Proofs.Memory.Placement

What a plan promises about the pools it gives out.  `Placed` says it for one
output and those placed before it: the pool is free of everything that is read
here or later, or the layer writes over its only operand on purpose.
`placed_of_layout` has it for every output of a plan.

The walk over the outputs keeps `Tenancy`: exactly the outputs passed so far have
a pool, and a pool knows how long its tenants are read.
-/

namespace NeuralC.Memory

open NeuralC.Graph

/-! ## Ranges -/

/-- The last place at which the output of a node is read. -/
def lastRead (g : Graph) (h : Handle) : Nat :=
  match g.get? h with
  | some n => (rangeOf g n (g.order.idxOf h)).keepUntil
  | none => 0

/-- An output is kept for each of its readers. -/
theorem le_lastRead {g : Graph} (hg : g.Sequenced) {h p : Handle} {n : Node}
    (hn : g.get? h = some n) (hp : p ∈ n.preds) : g.order.idxOf h ≤ lastRead g p := by
  obtain ⟨m, hm⟩ := contains_iff.mp (hg.pred_live hn hp)
  have hs : h ∈ m.succs := (hg.mem_succs_iff hm hn).mpr hp
  have hpos : g.position? h = some (g.order.idxOf h) :=
    position?_eq_some.mpr ⟨hg.mem_of_get? hn, rfl⟩
  simp only [lastRead, hm, rangeOf]
  exact List.le_max?_getD_of_mem (List.mem_filterMap.mpr ⟨h, hs, hpos⟩)

/-- A list of pairs is searched at the first place of the key. -/
theorem find?_zip {α β : Type} [DecidableEq α] {x : α} {xs : List α} {ys : List β}
    (hx : x ∈ xs) : ((xs.zip ys).find? (·.1 = x)).map (·.2) = ys[xs.idxOf x]? := by
  induction xs generalizing ys with
  | nil => contradiction
  | cons a xs ih =>
      cases ys with
      | nil => simp
      | cons y ys =>
          by_cases ha : a = x
          · simp [ha]
          · have hx' : x ∈ xs := (List.mem_cons.mp hx).resolve_left (Ne.symm ha)
            simp only [List.zip_cons_cons, List.find?_cons, decide_eq_false ha]
            rw [List.idxOf_cons_ne _ ha, List.getElem?_cons_succ]
            exact ih hx'

/-- The ranges are those of the nodes, by place. -/
theorem getElem?_of_liveness {g : Graph} {ranges : List LiveRange} {h : Handle} {i : Nat}
    (hl : liveness g = .ok ranges) (hi : g.order[i]? = some h) :
    ∃ n, g.get? h = some n ∧ ranges[i]? = some (rangeOf g n i) := by
  have hall := mapM_eq_ok.mp hl
  have hzip : g.order.zipIdx[i]? = some (h, i) := by simp [List.getElem?_zipIdx, hi]
  obtain ⟨hlt, hget⟩ := List.getElem?_eq_some_iff.mp hzip
  have hlt' : i < ranges.length := hall.length_eq ▸ hlt
  have hr := hall.get hlt hlt'
  simp only [List.get_eq_getElem, hget] at hr
  obtain ⟨n, hn, hrange⟩ := bind_eq_ok.mp hr
  injection hrange with hrange
  exact ⟨n, node_eq_ok.mp hn, by rw [List.getElem?_eq_getElem hlt', ← hrange]⟩

/-- A plan with the ranges of a graph finds that of each output. -/
theorem range?_of_liveness {g : Graph} {p : Plan} {ranges : List LiveRange} {h : Handle}
    (hl : liveness g = .ok ranges) (hp : p.ranges = g.order.zip ranges) (hh : h ∈ g.order) :
    p.range? h = some ⟨g.order.idxOf h, lastRead g h⟩ := by
  obtain ⟨n, hn, hr⟩ := getElem?_of_liveness hl (List.getElem?_idxOf hh)
  rw [Plan.range?, hp, find?_zip hh, hr]
  simp [lastRead, hn, rangeOf]

/-! ## Pools -/

namespace Plan

variable {p : Plan} {x h : Handle} {range : LiveRange} {i : Nat}

/-- A layer without a pool is a tenant of none. -/
theorem poolIndex_eq_zero : p.poolIndex x = 0 ↔ ∀ pool ∈ p.pools, x ∉ pool.tenants := by
  rw [poolIndex]
  split
  · next j hj =>
      obtain ⟨hlt, hc, _⟩ := List.findIdx?_eq_some_iff_getElem.mp hj
      refine ⟨fun h0 => absurd h0 (Nat.succ_ne_zero j), fun hall => ?_⟩
      exact absurd (List.contains_iff_mem.mp hc) (hall _ (List.getElem_mem hlt))
  · next hj =>
      simpa using List.findIdx?_eq_none_iff.mp hj

/-- Pools are numbered up to how many there are. -/
theorem poolIndex_le_length : p.poolIndex x ≤ p.pools.length := by
  rw [poolIndex]
  split
  · next j hj => exact (List.findIdx?_eq_some_iff_findIdx_eq.mp hj).1
  · exact Nat.zero_le _

/-- An output that has a pool is a tenant of it. -/
theorem exists_of_poolIndex (hx : p.poolIndex x = i + 1) :
    ∃ pool, p.pools[i]? = some pool ∧ x ∈ pool.tenants := by
  rw [poolIndex] at hx
  split at hx
  · next j hj =>
      obtain ⟨hlt, hc, _⟩ := List.findIdx?_eq_some_iff_getElem.mp hj
      injection hx with hx
      subst hx
      exact ⟨_, List.getElem?_eq_getElem hlt, List.contains_iff_mem.mp hc⟩
  · contradiction

/-- The number of a pool is found from what its pools say about the output. -/
theorem poolIndex_congr {q : Plan}
    (hpq : p.pools.map (·.tenants.contains x) = q.pools.map (·.tenants.contains x)) :
    p.poolIndex x = q.poolIndex x := by
  have hfind := congrArg (List.findIdx? id) hpq
  rw [List.findIdx?_map, List.findIdx?_map] at hfind
  simp only [poolIndex]
  rw [show p.pools.findIdx? (·.tenants.contains x) = q.pools.findIdx? (·.tenants.contains x)
    from hfind]

/-- The first pool with an output is its pool. -/
theorem poolIndex_eq_succ (hi : i < p.pools.length) (hx : x ∈ p.pools[i].tenants)
    (hj : ∀ j (hji : j < i), x ∉ p.pools[j].tenants) : p.poolIndex x = i + 1 := by
  have hfind : p.pools.findIdx? (·.tenants.contains x) = some i := by
    refine List.findIdx?_eq_some_iff_getElem.mpr ⟨hi, List.contains_iff_mem.mpr hx, ?_⟩
    intro j hji hc
    exact hj j hji (List.contains_iff_mem.mp hc)
  rw [poolIndex, hfind]

/-- A new pool takes in the new output and nothing else. -/
theorem poolIndex_openPool (hh : p.poolIndex h = 0) :
    (p.openPool h range).poolIndex x = if x = h then p.pools.length + 1 else p.poolIndex x := by
  have habsent := poolIndex_eq_zero.mp hh
  split
  · next hx =>
      subst hx
      refine poolIndex_eq_succ ?_ ?_ fun j hj => ?_
      · simp [openPool]
      · simp [openPool]
      · simp only [openPool, List.getElem_append_left hj]
        exact habsent _ (List.getElem_mem hj)
  · next hx =>
      have hnew : [Pool.mk [h] range.keepUntil].findIdx? (·.tenants.contains x) = none := by
        simp [hx]
      rw [poolIndex, openPool, List.findIdx?_append, hnew, Option.map_none, Option.or_none,
        poolIndex]

/-- A pool that is joined takes in the new output and nothing else. -/
theorem poolIndex_joinPool (hh : p.poolIndex h = 0) (hi : i < p.pools.length) :
    (p.joinPool (i + 1) h range).poolIndex x = if x = h then i + 1 else p.poolIndex x := by
  have habsent := poolIndex_eq_zero.mp hh
  split
  · next hx =>
      subst hx
      refine poolIndex_eq_succ ?_ ?_ fun j hj => ?_
      · simpa [joinPool] using hi
      · simp [joinPool]
      · simp only [joinPool, Nat.add_sub_cancel, List.getElem_modify_ne _ _ (Nat.ne_of_gt hj)]
        exact habsent _ (List.getElem_mem _)
  · next hx =>
      refine poolIndex_congr (List.ext_getElem? fun j => ?_)
      simp only [joinPool, List.getElem?_map, List.getElem?_modify, Nat.add_sub_cancel]
      split <;> cases p.pools[j]? <;> simp [hx]

/-- Joining a pool changes that pool alone, and it ends no earlier than before. -/
theorem mem_joinPool {pool : Pool} (hp : pool ∈ (p.joinPool (i + 1) h range).pools) :
    pool ∈ p.pools ∨ ∃ old ∈ p.pools,
      pool = ⟨old.tenants ++ [h], max old.liveUntil range.keepUntil⟩ := by
  obtain ⟨j, hj⟩ := List.mem_iff_getElem?.mp hp
  rw [joinPool, Nat.add_sub_cancel, List.getElem?_modify] at hj
  obtain ⟨old, hold, hpool⟩ := Option.map_eq_some_iff.mp hj
  have hmem := List.mem_of_getElem? hold
  split at hpool
  · exact .inr ⟨old, hmem, hpool.symm⟩
  · exact .inl (hpool ▸ hmem)

end Plan

/-! ## One placement -/

/-- What a placement has checked. -/
theorem placementOf_cases {g : Graph} {p : Plan} {n : Node} {range : LiveRange}
    {placement : Placement} (hp : placementOf g p n range = .ok placement) :
    placement = .opens (p.pools.length + 1) ∨
      (∃ i, placement = .reuses i ∧ p.freePool? n.preds range.created = some i) ∨
      ∃ q i, placement = .overwrites q (i + 1) ∧ n.layer.kind = .flatten ∧
        range.created ≠ 1 ∧ n.preds = [q] ∧ p.poolIndex q = i + 1 := by
  unfold placementOf at hp
  split at hp
  · injection hp with hp
    exact .inl hp.symm
  · next hcreated =>
      split at hp
      · next hover =>
          have hkind : n.layer.kind = .flatten := by
            unfold Layer.overwritesInput at hover
            split at hover
            · assumption
            · contradiction
          split at hp
          · next q hpreds =>
              obtain ⟨_, _, hp⟩ := bind_eq_ok.mp hp
              split at hp
              · contradiction
              · next index hindex =>
                  obtain ⟨i, hi⟩ := Nat.exists_eq_succ_of_ne_zero hindex
                  injection hp with hp
                  exact .inr (.inr ⟨q, i, by rw [← hp, hi], hkind, hcreated, hpreds, hi⟩)
          · contradiction
      · split at hp
        · next i hfree =>
            injection hp with hp
            exact .inr (.inl ⟨i, hp.symm, hfree⟩)
        · injection hp with hp
          exact .inl hp.symm

/-- What a free pool has been chosen for. -/
theorem freePool?_eq_some {p : Plan} {preds : List Handle} {place i : Nat}
    (hf : p.freePool? preds place = some i) :
    ∃ j pool, i = j + 1 ∧ p.pools[j]? = some pool ∧ pool.liveUntil ≤ place ∧
      ∀ x ∈ preds, p.poolIndex x ≠ i := by
  simp only [Plan.freePool?, Option.map_eq_some_iff] at hf
  obtain ⟨⟨pool, j⟩, hfind, hj⟩ := hf
  have hcond := List.find?_some hfind
  simp only [Bool.and_eq_true, Bool.not_eq_true', decide_eq_true_eq,
    List.contains_eq_mem, decide_eq_false_iff_not, List.mem_map, not_exists, not_and] at hcond
  have hpool := List.mk_mem_zipIdx_iff_getElem?.mp (List.mem_of_find?_eq_some hfind)
  exact ⟨j, pool, hj.symm, hpool, hcond.2, fun x hx => hj ▸ hcond.1 x hx⟩

/-- Where the output of `h` may go among outputs that were placed before. -/
inductive Placed (g : Graph) (index : Handle → Nat) (before : List Handle) (h : Handle)
    (n : Node) : Prop where
  /-- Into a pool whose outputs are not operands and not read any more. -/
  | free (hfree : ∀ x ∈ before, index x = index h →
      x ∉ n.preds ∧ lastRead g x ≤ g.order.idxOf h)
  /-- Over its only operand. -/
  | reused (q : Handle) (hkind : n.layer.kind = .flatten) (hpreds : n.preds = [q])
      (hq : q ∈ before) (hindex : index q = index h)

/-- Only the pools of the outputs at hand matter. -/
theorem Placed.congr {g : Graph} {index index' : Handle → Nat} {before : List Handle}
    {h : Handle} {n : Node} (hp : Placed g index before h n)
    (hbefore : ∀ x ∈ before, index' x = index x) (hh : index' h = index h) :
    Placed g index' before h n := by
  cases hp with
  | free hfree =>
      refine .free fun x hx hxh => hfree x hx ?_
      rw [← hbefore x hx, ← hh, hxh]
  | reused q hkind hpreds hq hindex =>
      refine .reused q hkind hpreds hq ?_
      rw [hbefore q hq, hh, hindex]

/-- Which outputs have a pool, and how long pools are kept. -/
structure Tenancy (g : Graph) (p : Plan) (done : List Handle) : Prop where
  /-- Exactly the outputs passed so far have a pool. -/
  mem_iff : ∀ {x}, x ∈ done ↔ p.poolIndex x ≠ 0
  /-- A pool is kept as long as any of its outputs. -/
  lastRead_le : ∀ {pool x}, pool ∈ p.pools → x ∈ pool.tenants → lastRead g x ≤ pool.liveUntil

namespace Tenancy

variable {g : Graph} {p : Plan} {done : List Handle} {h : Handle} {range : LiveRange}

theorem empty {ranges : List (Handle × LiveRange)} :
    Tenancy g { Plan.empty with ranges := ranges } [] := by
  refine ⟨fun {x} => ?_, ?_⟩
  · simp [Plan.empty, Plan.poolIndex]
  · simp [Plan.empty]

variable (ht : Tenancy g p done) (hh : h ∉ done) (hrange : range.keepUntil = lastRead g h)

include ht

include hh in
theorem poolIndex_eq_zero : p.poolIndex h = 0 :=
  Classical.not_not.mp fun hne => hh (ht.mem_iff.mpr hne)

include hh hrange

/-- Opening a pool for a layer keeps the tenancy. -/
theorem openPool : Tenancy g (p.openPool h range) (done ++ [h]) := by
  have h0 := ht.poolIndex_eq_zero hh
  refine ⟨fun {x} => ?_, fun {pool x} hpool hx => ?_⟩
  · rw [Plan.poolIndex_openPool h0, List.mem_append, List.mem_singleton, ht.mem_iff]
    by_cases hx : x = h <;> simp [hx]
  · rw [Plan.openPool, List.mem_append, List.mem_singleton] at hpool
    rcases hpool with hpool | rfl
    · exact ht.lastRead_le hpool hx
    · rw [List.mem_singleton.mp hx]
      exact Nat.le_of_eq hrange.symm

/-- Joining a pool keeps the tenancy. -/
theorem joinPool {i : Nat} (hi : i < p.pools.length) :
    Tenancy g (p.joinPool (i + 1) h range) (done ++ [h]) := by
  have h0 := ht.poolIndex_eq_zero hh
  refine ⟨fun {x} => ?_, fun {pool x} hpool hx => ?_⟩
  · rw [Plan.poolIndex_joinPool h0 hi, List.mem_append, List.mem_singleton, ht.mem_iff]
    by_cases hx : x = h <;> simp [hx]
  · rcases Plan.mem_joinPool hpool with hpool | ⟨old, hold, rfl⟩
    · exact ht.lastRead_le hpool hx
    · rcases List.mem_append.mp hx with hx | hx
      · exact Nat.le_trans (ht.lastRead_le hold hx) (Nat.le_max_left _ _)
      · rw [List.mem_singleton.mp hx, ← hrange]
        exact Nat.le_max_right _ _

end Tenancy

/-- What has been looked up for a placement that was made. -/
theorem placeOne_cases {g : Graph} {p p' : Plan} {h : Handle} {placement : Placement}
    (hp : placeOne g p h = .ok (p', placement)) :
    ∃ n range, g.get? h = some n ∧ p.range? h = some range ∧
      placementOf g p n range = .ok placement ∧ p' = p.apply h range placement := by
  obtain ⟨n, hn, hp⟩ := bind_eq_ok.mp hp
  split at hp
  · contradiction
  · next range hrange =>
      obtain ⟨pl, hpl, hp⟩ := bind_eq_ok.mp hp
      obtain ⟨q, hq, hpair⟩ := bind_eq_ok.mp hp
      injection hpair with hpair
      injection hpair with hp' hpl'
      subst hp' hpl'
      unfold Plan.place at hq
      split at hq
      · injection hq with hq
        exact ⟨n, range, node_eq_ok.mp hn, hrange, hpl, hq.symm⟩
      · contradiction

/-- What every placement keeps holds of a plan and the placements that were made for it. -/
theorem placeAll_induction {g : Graph} {P : Plan → List (Handle × Placement) → Prop}
    (hstep : ∀ p p' made h placement, P p made → placeOne g p h = .ok (p', placement) →
      P p' (made ++ [(h, placement)]))
    {p plan : Plan} {made : List (Handle × Placement)} {hs : List Handle} (hP : P p made)
    (hp : (placeAll g p hs).2 = .ok plan) :
    P plan (made ++ (placeAll g p hs).1) ∧ (placeAll g p hs).1.map Prod.fst = hs := by
  induction hs generalizing p made with
  | nil =>
      injection hp with hp
      subst hp
      exact ⟨by rwa [placeAll, List.append_nil], rfl⟩
  | cons h hs ih =>
      unfold placeAll at hp ⊢
      split at hp
      · contradiction
      · next p' placement hone =>
          obtain ⟨hP', hhs⟩ := ih (hstep p p' made h placement hP hone) hp
          simp only [List.map_cons, hhs, and_true]
          rwa [List.append_assoc, List.singleton_append] at hP'

/-- What holds of the empty plan and is kept by every placement holds of a layout. -/
theorem layout_induction {g : Graph} {P : Plan → List (Handle × Placement) → Prop}
    (hstep : ∀ p p' made h placement, P p made → placeOne g p h = .ok (p', placement) →
      P p' (made ++ [(h, placement)]))
    (hempty : ∀ ranges, P { Plan.empty with ranges := ranges } []) {plan : Plan}
    (hl : (layout g).2 = .ok plan) :
    P plan (layout g).1 ∧ (layout g).1.map Prod.fst = interior g := by
  unfold layout at hl ⊢
  split at hl
  · contradiction
  · exact placeAll_induction hstep (hempty _) hl

/-- What one placement keeps and promises. -/
structure Extends (g : Graph) (p p' : Plan) (done : List Handle) (h : Handle) : Prop where
  tenancy : Tenancy g p' (done ++ [h])
  ranges_eq : p'.ranges = p.ranges
  /-- Outputs stay where they are. -/
  poolIndex_eq : ∀ x ∈ done, p'.poolIndex x = p.poolIndex x
  placed : ∃ n, g.get? h = some n ∧ Placed g p'.poolIndex done h n

section Extends

variable {g : Graph} {p : Plan} {done : List Handle} {h : Handle} {n : Node} {range : LiveRange}
  (ht : Tenancy g p done) (hh : h ∉ done) (hn : g.get? h = some n)
  (hrange : range = ⟨g.order.idxOf h, lastRead g h⟩)

include ht hh hn hrange

/-- A new pool brings no two layers together. -/
theorem extends_open : Extends g p (p.openPool h range) done h := by
  have hindex : ∀ x, (p.openPool h range).poolIndex x =
      if x = h then p.pools.length + 1 else p.poolIndex x :=
    fun _ => Plan.poolIndex_openPool (ht.poolIndex_eq_zero hh)
  have hne : ∀ x ∈ done, x ≠ h := fun x hx hxh => hh (hxh ▸ hx)
  refine ⟨ht.openPool hh (by rw [hrange]), rfl, fun x hx => ?_, n, hn, .free fun x hx hxh => ?_⟩
  · rw [hindex, if_neg (hne x hx)]
  · -- No output had the number of the new pool.
    rw [hindex, hindex, if_neg (hne x hx), if_pos rfl] at hxh
    have hle := Plan.poolIndex_le_length (p := p) (x := x)
    omega

/-- A free pool has no tenant that is still to be read. -/
theorem extends_reuse {i : Nat} (hfree : p.freePool? n.preds range.created = some i) :
    Extends g p (p.joinPool i h range) done h := by
  obtain ⟨j, pool, rfl, hpool, huntil, hpreds⟩ := freePool?_eq_some hfree
  have hj := (List.getElem?_eq_some_iff.mp hpool).1
  have hindex : ∀ x, (p.joinPool (j + 1) h range).poolIndex x =
      if x = h then j + 1 else p.poolIndex x :=
    fun _ => Plan.poolIndex_joinPool (ht.poolIndex_eq_zero hh) hj
  have hne : ∀ x ∈ done, x ≠ h := fun x hx hxh => hh (hxh ▸ hx)
  refine ⟨ht.joinPool hh (by rw [hrange]) hj, rfl, fun x hx => ?_, n, hn,
    .free fun x hx hxh => ?_⟩
  · rw [hindex, if_neg (hne x hx)]
  · rw [hindex, hindex, if_neg (hne x hx), if_pos rfl] at hxh
    obtain ⟨pool', hpool', htenant⟩ := Plan.exists_of_poolIndex hxh
    rw [hpool] at hpool'
    injection hpool' with hpool'
    subst hpool'
    refine ⟨fun hxp => hpreds x hxp hxh, ?_⟩
    rw [hrange] at huntil
    exact Nat.le_trans (ht.lastRead_le (List.mem_of_getElem? hpool) htenant) huntil

/-- A layer that writes over its operand shares memory with its pool. -/
theorem extends_overwrite {q : Handle} {i : Nat} (hkind : n.layer.kind = .flatten)
    (hpreds : n.preds = [q]) (hq : p.poolIndex q = i + 1) :
    Extends g p (p.joinPool (i + 1) h range) done h := by
  have hj : i < p.pools.length := by
    have hle := Plan.poolIndex_le_length (p := p) (x := q)
    omega
  have hindex : ∀ x, (p.joinPool (i + 1) h range).poolIndex x =
      if x = h then i + 1 else p.poolIndex x :=
    fun _ => Plan.poolIndex_joinPool (ht.poolIndex_eq_zero hh) hj
  have hne : ∀ x ∈ done, x ≠ h := fun x hx hxh => hh (hxh ▸ hx)
  have hqd : q ∈ done := ht.mem_iff.mpr (hq ▸ Nat.succ_ne_zero i)
  refine ⟨ht.joinPool hh (by rw [hrange]) hj, rfl, fun x hx => ?_, n, hn,
    .reused q hkind hpreds hqd ?_⟩
  · rw [hindex, if_neg (hne x hx)]
  · rw [hindex, hindex, if_neg (hne q hqd), if_pos rfl, hq]

end Extends

/-- Whatever is decided for a layer, the plan is extended by it. -/
theorem Tenancy.placeOne {g : Graph} {p p' : Plan} {done : List Handle} {h : Handle}
    {placement : Placement} (ht : Tenancy g p done) (hh : h ∉ done)
    (hr : p.range? h = some ⟨g.order.idxOf h, lastRead g h⟩)
    (hp : placeOne g p h = .ok (p', placement)) : Extends g p p' done h := by
  obtain ⟨n, range, hn, hrange, hplace, rfl⟩ := placeOne_cases hp
  rw [hr] at hrange
  injection hrange with hrange
  obtain rfl | ⟨i, rfl, hfree⟩ | ⟨q, i, rfl, hkind, _, hpreds, hq⟩ := placementOf_cases hplace
  · exact extends_open ht hh hn hrange.symm
  · exact extends_reuse ht hh hn hrange.symm hfree
  · -- The pair that is noted down beside the pools has no part in where outputs are.
    have hext := extends_overwrite ht hh hn hrange.symm hkind hpreds hq
    exact ⟨⟨hext.tenancy.mem_iff, hext.tenancy.lastRead_le⟩, rfl, hext.poolIndex_eq, hext.placed⟩

/-! ## All placements -/

/-- Every output of a walk is placed with regard to those before it. -/
theorem Tenancy.placeAll {g : Graph} {p plan : Plan} {done hs : List Handle}
    (ht : Tenancy g p done) (hnd : (done ++ hs).Nodup)
    (hr : ∀ h ∈ hs, p.range? h = some ⟨g.order.idxOf h, lastRead g h⟩)
    (hp : (placeAll g p hs).2 = .ok plan) :
    Tenancy g plan (done ++ hs) ∧ (∀ x ∈ done, plan.poolIndex x = p.poolIndex x) ∧
      ∀ xs h ys, hs = xs ++ h :: ys →
        ∃ n, g.get? h = some n ∧ Placed g plan.poolIndex (done ++ xs) h n := by
  induction hs generalizing p done with
  | nil =>
      injection hp with hp
      subst hp
      refine ⟨by rwa [List.append_nil], fun _ _ => rfl, fun xs h ys hs => ?_⟩
      simp at hs
  | cons k hs ih =>
      unfold Memory.placeAll at hp
      split at hp
      · contradiction
      · next p' placement hone =>
          have hk : k ∉ done := fun hk =>
            List.disjoint_of_nodup_append hnd hk List.mem_cons_self
          have hext := ht.placeOne hk (hr k List.mem_cons_self) hone
          have hr' : ∀ h ∈ hs, p'.range? h = some ⟨g.order.idxOf h, lastRead g h⟩ := by
            intro h hh
            rw [Plan.range?, hext.ranges_eq]
            exact hr h (List.mem_cons_of_mem k hh)
          rw [← List.singleton_append, ← List.append_assoc] at hnd
          obtain ⟨hlast, hstay, hall⟩ := ih hext.tenancy hnd hr' hp
          rw [List.append_assoc, List.singleton_append] at hlast
          refine ⟨hlast, fun x hx => ?_, fun xs h ys hs' => ?_⟩
          · rw [hstay x (List.mem_append_left _ hx), hext.poolIndex_eq x hx]
          · cases xs with
            | nil =>
                injection hs' with hkh _
                subst hkh
                obtain ⟨n, hn, hplaced⟩ := hext.placed
                refine ⟨n, hn, ?_⟩
                rw [List.append_nil]
                exact hplaced.congr (fun x hx => hstay x (List.mem_append_left _ hx))
                  (hstay k (List.mem_append_right _ (List.mem_singleton_self k)))
            | cons x xs =>
                injection hs' with hkx hs'
                subst hkx
                have hnext := hall xs h ys hs'
                rwa [List.append_assoc, List.singleton_append] at hnext

/-- A plan for a graph has a pool for every output in between, and every output in
between is placed with regard to those before it. -/
theorem placed_of_layout {g : Graph} {plan : Plan} (hn : g.order.Nodup)
    (hl : (layout g).2 = .ok plan) :
    Tenancy g plan (interior g) ∧ ∀ xs h ys, interior g = xs ++ h :: ys →
      ∃ n, g.get? h = some n ∧ Placed g plan.poolIndex xs h n := by
  unfold layout at hl
  split at hl
  · contradiction
  · next ranges hranges =>
      have hsub : (interior g).Sublist g.order :=
        (List.dropLast_sublist _).trans (List.drop_sublist 1 _)
      have hnd : ([] ++ interior g).Nodup := hn.sublist hsub
      obtain ⟨ht, _, hall⟩ := Tenancy.empty.placeAll hnd
        (fun h hh => range?_of_liveness hranges rfl (hsub.subset hh)) hl
      exact ⟨ht, hall⟩

/-- Taking note of placements never fails. -/
theorem exists_notePlacements (g : Graph) (made : List (Handle × Placement)) (w : Workspace) :
    ∃ w', notePlacements g made w = .ok () w' := by
  induction made generalizing w with
  | nil => exact ⟨w, rfl⟩
  | cons m made ih =>
      obtain ⟨h, placement⟩ := m
      have hone : ∃ v, notePlacement g h placement w = .ok () v := by
        cases placement with
        | opens index =>
            by_cases hp : g.position? h = some 1
            · simp [notePlacement, hp]
            · simp [notePlacement, Work.bind_apply, hp]
        | reuses index => exact ⟨_, rfl⟩
        | overwrites operand index => exact ⟨_, rfl⟩
      obtain ⟨v, hv⟩ := hone
      obtain ⟨w', hw'⟩ := ih v
      exact ⟨w', Work.bind_eq_ok.mpr ⟨(), v, hv, hw'⟩⟩

/-- A plan is allocated when the layout gives it and its size is known. -/
theorem exists_allocate {w : Workspace} {plan : Plan} :
    (∃ w', allocate w = .ok plan w') ↔
      (layout w.graph).2 = .ok plan ∧ ∃ bytes, footprint w.graph plan = .ok bytes := by
  constructor
  · rintro ⟨w', ha⟩
    obtain ⟨g, v, hg, ha⟩ := Work.bind_eq_ok.mp ha
    injection hg with hg _
    subst hg
    obtain ⟨_, _, _, ha⟩ := Work.bind_eq_ok.mp ha
    obtain ⟨plan', _, hplan, ha⟩ := Work.bind_eq_ok.mp ha
    obtain ⟨bytes, _, hbytes, ha⟩ := Work.bind_eq_ok.mp ha
    obtain ⟨_, _, _, ha⟩ := Work.bind_eq_ok.mp ha
    obtain ⟨_, _, _, ha⟩ := Work.bind_eq_ok.mp ha
    injection ha with ha _
    subst ha
    exact ⟨(Work.attempt_eq_ok.mp hplan).1, bytes, (Work.attempt_eq_ok.mp hbytes).1⟩
  · rintro ⟨hl, bytes, hb⟩
    obtain ⟨v, hv⟩ := exists_notePlacements w.graph (layout w.graph).1 w
    refine ⟨_, Work.bind_eq_ok.mpr ⟨w.graph, w, rfl, Work.bind_eq_ok.mpr ⟨(), v, hv,
      Work.bind_eq_ok.mpr ⟨plan, v, Work.attempt_eq_ok.mpr ⟨hl, rfl⟩,
        Work.bind_eq_ok.mpr ⟨bytes, v, Work.attempt_eq_ok.mpr ⟨hb, rfl⟩, rfl⟩⟩⟩⟩⟩

end NeuralC.Memory
