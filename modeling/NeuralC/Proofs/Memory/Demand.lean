import Mathlib.Data.Set.Card
import Mathlib.Logic.Relation
import Mathlib.Order.Interval.Finset.Nat
import Mathlib.Order.Lattice.Nat
import NeuralC.Proofs.Graph.Histories
import NeuralC.Proofs.Memory.Placement

/-!
# NeuralC.Proofs.Memory.Demand

A plan has no more pools than the outputs need.  Outputs that are kept at a
common place need different pools, unless one has been written over the other;
`demand` counts how many pools are needed at a place.

Two sides meet in the number of pools.  Outputs in one pool that are kept at a
common place have been written over each other (`equivalent_of_liveAt`), so a
place never needs more pools than there are.  And a pool is opened only where
every other one holds an output that is still kept (`Packed.held_of_opens`), so
where the last one is opened all of them are needed (`exists_liveAt`).
-/

namespace NeuralC.Memory

open NeuralC.Graph

/-! ## Demand -/

/-- Outputs that are linked by layers that write over their operands. -/
def Plan.Equivalent (p : Plan) : Handle → Handle → Prop :=
  Relation.EqvGen fun a b => p.isOverwrite a b = true

/-- The output is kept at a place. -/
def Plan.LiveAt (p : Plan) (place : Nat) (h : Handle) : Prop :=
  ∃ range, p.range? h = some range ∧ range.created ≤ place ∧ place ≤ range.keepUntil

/-- The outputs in between that are kept at a place. -/
def liveAt (g : Graph) (p : Plan) (place : Nat) : Set Handle :=
  {h | h ∈ interior g ∧ p.LiveAt place h}

/-- The number of outputs in between that are kept at a place, where equivalent ones count
once. -/
noncomputable def demand (g : Graph) (p : Plan) (place : Nat) : Nat :=
  (Set.image (Quot.mk p.Equivalent) (liveAt g p place)).ncard

/-- Outputs in between that are kept at a common place are told apart, unless they are
equivalent. -/
def Separates {ι : Type*} (g : Graph) (p : Plan) (f : Handle → ι) : Prop :=
  ∀ a ∈ interior g, ∀ b ∈ interior g, ∀ ra rb, p.range? a = some ra → p.range? b = some rb →
    ra.overlaps rb = true → ¬ p.Equivalent a b → f a ≠ f b

/-! ## Places -/

theorem mem_order_of_mem_interior {g : Graph} {h : Handle} (hh : h ∈ interior g) :
    h ∈ g.order :=
  List.mem_of_mem_drop (List.mem_of_mem_dropLast hh)

/-- The layers in between stand in the order of the graph. -/
theorem interior_sublist (g : Graph) : (interior g).Sublist g.order :=
  (List.dropLast_sublist _).trans (List.drop_sublist 1 _)

theorem nodup_interior {g : Graph} (hnd : g.order.Nodup) : (interior g).Nodup :=
  hnd.sublist (interior_sublist g)

section Places

variable {g : Graph} (hnd : g.order.Nodup) {xs ys : List Handle} {h a : Handle}
  (hs : interior g = xs ++ h :: ys)

include hnd hs

/-- A layer in between stands one place behind those in front of it, for the input. -/
theorem idxOf_of_interior_eq : g.order.idxOf h = xs.length + 1 := by
  cases ho : g.order with
  | nil =>
      rw [interior, ho] at hs
      simp at hs
  | cons first rest =>
      have hrest : rest.dropLast = xs ++ h :: ys := by
        rw [interior, ho] at hs
        exact hs
      rcases List.eq_nil_or_concat rest with rfl | ⟨zs, z, rfl⟩
      · simp at hrest
      · rw [List.concat_eq_append, List.dropLast_concat] at hrest
        have hsplit : g.order = (first :: xs) ++ h :: (ys ++ [z]) := by
          rw [ho, List.concat_eq_append, hrest]
          simp
        rw [← ho, idxOf_of_order_eq hnd hsplit, List.length_cons]

/-- The outputs placed before one stand in front of it. -/
theorem idxOf_lt_iff (ha : a ∈ interior g) : g.order.idxOf a < g.order.idxOf h ↔ a ∈ xs := by
  have hplace := idxOf_of_interior_eq hnd hs
  constructor
  · intro hlt
    rw [hs, List.mem_append, List.mem_cons] at ha
    rcases ha with ha | rfl | ha
    · exact ha
    · exact absurd hlt (Nat.lt_irrefl _)
    · obtain ⟨cs, ds, rfl⟩ := List.append_of_mem ha
      have hs' : interior g = (xs ++ h :: cs) ++ a :: ds := by simpa using hs
      have hlater := idxOf_of_interior_eq hnd hs'
      rw [List.length_append, List.length_cons] at hlater
      omega
  · intro hax
    obtain ⟨cs, ds, rfl⟩ := List.append_of_mem hax
    have hs' : interior g = cs ++ a :: (ds ++ h :: ys) := by simpa using hs
    have hearlier := idxOf_of_interior_eq hnd hs'
    rw [List.length_append, List.length_cons] at hplace
    omega

end Places

/-- The last layer stands at the last place. -/
theorem idxOf_output {g : Graph} (hnd : g.order.Nodup) {h : Handle} (hh : g.output? = some h) :
    g.order.idxOf h + 1 = g.order.length := by
  obtain ⟨xs, hxs⟩ := List.getLast?_eq_some_iff.mp hh
  rw [idxOf_of_order_eq hnd hxs, hxs, List.length_append, List.length_singleton]

/-- The outputs in between are those behind the first place and in front of the last. -/
theorem mem_interior_iff {g : Graph} (hnd : g.order.Nodup) {h : Handle} :
    h ∈ interior g ↔
      h ∈ g.order ∧ 0 < g.order.idxOf h ∧ g.order.idxOf h + 1 < g.order.length := by
  constructor
  · intro hh
    obtain ⟨xs, ys, hs⟩ := List.append_of_mem hh
    have hplace := idxOf_of_interior_eq hnd hs
    have hlen := congrArg List.length hs
    simp only [interior, List.length_dropLast, List.length_drop, List.length_append,
      List.length_cons] at hlen
    exact ⟨mem_order_of_mem_interior hh, by omega, by omega⟩
  · rintro ⟨hh, hpos, hlt⟩
    refine List.mem_of_getElem? (i := g.order.idxOf h - 1) ?_
    rw [interior, List.getElem?_dropLast, List.length_drop, if_pos (by omega), List.getElem?_drop,
      Nat.add_sub_cancel' hpos, List.getElem?_idxOf hh]

/-- An output is last read where one of its readers stands, and at its own place when it has
none. -/
theorem lastRead_cases {g : Graph} {h : Handle} {n : Node} (hn : g.get? h = some n) :
    lastRead g h = g.order.idxOf h ∨
      ∃ s ∈ n.succs, s ∈ g.order ∧ lastRead g h = g.order.idxOf s := by
  simp only [lastRead, hn, rangeOf]
  cases hmax : (n.succs.filterMap g.position?).max? with
  | none => exact .inl rfl
  | some v =>
      obtain ⟨s, hs, hpos⟩ := List.mem_filterMap.mp (List.max?_mem hmax)
      obtain ⟨hmem, hv⟩ := position?_eq_some.mp hpos
      exact .inr ⟨s, hs, hmem, hv.symm⟩

/-- An output that a layer does not read is not last read there. -/
theorem lastRead_lt {g : Graph} (hg : g.Sequenced) {h x : Handle} {n : Node}
    (hn : g.get? h = some n) (hx : x ∈ g.order) (hlt : g.order.idxOf x < g.order.idxOf h)
    (hread : x ∉ n.preds) (hle : lastRead g x ≤ g.order.idxOf h) :
    lastRead g x < g.order.idxOf h := by
  obtain ⟨m, hm⟩ := hg.exists_get? hx
  rcases lastRead_cases hm with hown | ⟨s, hs, hmem, hlast⟩
  · omega
  · refine Nat.lt_of_le_of_ne hle fun heq => ?_
    have hsh : s = h := (List.idxOf_inj hmem).mp (hlast.symm.trans heq)
    subst hsh
    exact hread ((hg.mem_succs_iff hm hn).mp hs)

/-- An output is kept from its own place on. -/
theorem idxOf_le_lastRead {g : Graph} (hg : g.Sequenced) {h : Handle} {n : Node}
    (hn : g.get? h = some n) : g.order.idxOf h ≤ lastRead g h := by
  rcases lastRead_cases hn with hown | ⟨s, hs, hmem, hlast⟩
  · exact Nat.le_of_eq hown.symm
  · obtain ⟨r, hr⟩ := hg.exists_get? hmem
    have hread := (hg.mem_succs_iff hn hr).mp hs
    obtain ⟨_, _, hlt⟩ := (before_iff_idxOf hg.nodup).mp (hg.forward hr hread)
    rw [hlast]
    exact Nat.le_of_lt hlt

/-! ## Pools in use -/

/-- A pool has an output that is kept at a place. -/
def Held (g : Graph) (p : Plan) (place i : Nat) : Prop :=
  ∃ x, p.poolIndex x = i + 1 ∧ g.order.idxOf x ≤ place ∧ place ≤ lastRead g x

/-- How a walk over the outputs fills pools. -/
structure Packed (g : Graph) (p : Plan) (done : List Handle) : Prop extends Tenancy g p done where
  /-- A layer that writes over its operand is noted down. -/
  noted : ∀ {h n q}, h ∈ done → g.get? h = some n → n.layer.kind = .flatten →
    g.order.idxOf h ≠ 1 → n.preds = [q] → p.isOverwrite q h = true
  /-- What is noted down shares a pool. -/
  shared : ∀ {a b}, p.isOverwrite a b = true → p.poolIndex a ≠ 0 ∧ p.poolIndex b = p.poolIndex a
  /-- A pool is kept no longer than one of its outputs. -/
  attained : ∀ {i pool}, p.pools[i]? = some pool →
    ∃ x, p.poolIndex x = i + 1 ∧ lastRead g x = pool.liveUntil
  /-- There is a place at which all pools are in use. -/
  crowded : p.pools ≠ [] → ∃ place < g.order.length, ∀ i < p.pools.length, Held g p place i

/-- A plan without pools is packed. -/
theorem Packed.empty {g : Graph} {ranges : List (Handle × LiveRange)} :
    Packed g { Plan.empty with ranges := ranges } [] where
  toTenancy := Tenancy.empty
  noted := by simp
  shared := by simp [Plan.isOverwrite, Plan.empty]
  attained := by simp [Plan.empty]
  crowded := by simp [Plan.empty]

/-! ## One placement -/

theorem Plan.lt_of_poolIndex {p : Plan} {x : Handle} {i : Nat} (hx : p.poolIndex x = i + 1) :
    i < p.pools.length := by
  have hle := Plan.poolIndex_le_length (p := p) (x := x)
  omega

theorem Plan.hasPool_succ {p : Plan} {i : Nat} (hi : i < p.pools.length) :
    p.hasPool (i + 1) = true := by
  simpa [hasPool] using hi

/-- An output joins a pool of the plan. -/
theorem place_of_placementOf {g : Graph} {p : Plan} {n : Node} {range : LiveRange}
    {placement : Placement} (hp : placementOf g p n range = .ok placement) (h : Handle) :
    p.place h range placement = .ok (p.apply h range placement) := by
  have hjoins : placement.joins?.all p.hasPool = true := by
    rcases placementOf_cases hp with rfl | ⟨i, rfl, hfree⟩ | ⟨q, i, rfl, _, _, _, hq⟩
    · rfl
    · obtain ⟨j, pool, rfl, hj, _⟩ := freePool?_eq_some hfree
      exact Plan.hasPool_succ (List.getElem?_eq_some_iff.mp hj).1
    · exact Plan.hasPool_succ (Plan.lt_of_poolIndex hq)
  rw [Plan.place, if_pos hjoins]

/-- A layer whose range is known is placed where a place for it is found. -/
theorem placeOne_eq_map {g : Graph} {p : Plan} {h : Handle} {n : Node} {range : LiveRange}
    (hn : g.get? h = some n) (hr : p.range? h = some range) :
    placeOne g p h =
      (placementOf g p n range).map fun placement => (p.apply h range placement, placement) := by
  simp only [placeOne, node_eq_ok.mpr hn, hr, bind, Except.bind]
  cases hp : placementOf g p n range with
  | error f => rfl
  | ok placement =>
      simp only [place_of_placementOf hp]
      rfl

/-- What is noted down beside the pools. -/
theorem isOverwrite_apply {p : Plan} {h a b : Handle} {range : LiveRange}
    {placement : Placement} :
    (p.apply h range placement).isOverwrite a b = true ↔
      p.isOverwrite a b = true ∨ ∃ i, placement = .overwrites a i ∧ b = h := by
  cases placement with
  | opens index => simp [Plan.apply, Plan.openPool, Plan.isOverwrite]
  | reuses index => simp [Plan.apply, Plan.joinPool, Plan.isOverwrite]
  | overwrites operand index =>
      simp only [Plan.apply, Plan.joinPool, Plan.isOverwrite, List.contains_iff_mem,
        List.mem_append, List.mem_singleton, Prod.mk.injEq, Placement.overwrites.injEq]
      refine or_congr_right ⟨?_, ?_⟩
      · rintro ⟨ha, hb⟩
        exact ⟨index, ⟨ha.symm, rfl⟩, hb⟩
      · rintro ⟨_, ⟨ha, _⟩, hb⟩
        exact ⟨ha.symm, hb⟩

/-- A layer that may write over its only operand does so, unless it comes first. -/
theorem placementOf_of_flatten {g : Graph} {p : Plan} {n : Node} {range : LiveRange}
    {placement : Placement} {q : Handle} (hp : placementOf g p n range = .ok placement)
    (hkind : n.layer.kind = .flatten) (hcreated : range.created ≠ 1) (hpreds : n.preds = [q]) :
    ∃ i, placement = .overwrites q i := by
  have hover : n.layer.overwritesInput = true := by rw [Layer.overwritesInput, hkind]
  rw [placementOf, if_neg hcreated, if_pos hover, hpreds] at hp
  obtain ⟨_, _, hp⟩ := bind_eq_ok.mp hp
  split at hp
  · contradiction
  · injection hp with hp
    exact ⟨_, hp.symm⟩

/-- A pool is opened by the first output and where none is free. -/
theorem placementOf_opens {g : Graph} {p : Plan} {n : Node} {range : LiveRange} {i : Nat}
    (hp : placementOf g p n range = .ok (.opens i)) :
    range.created = 1 ∨ p.freePool? n.preds range.created = none := by
  unfold placementOf at hp
  split at hp
  · next hcreated => exact .inl hcreated
  · split at hp
    · split at hp
      · obtain ⟨_, _, hp⟩ := bind_eq_ok.mp hp
        split at hp
        · contradiction
        · injection hp with hp
          contradiction
      · contradiction
    · split at hp
      · injection hp with hp
        contradiction
      · next hfree => exact .inr hfree

/-- A pool that is not free has an operand, or an output that is read later. -/
theorem freePool?_eq_none {p : Plan} {preds : List Handle} {place j : Nat} {pool : Pool}
    (hf : p.freePool? preds place = none) (hj : p.pools[j]? = some pool) :
    (∃ x ∈ preds, p.poolIndex x = j + 1) ∨ place < pool.liveUntil := by
  simp only [Plan.freePool?, Option.map_eq_none_iff, List.find?_eq_none] at hf
  have hcond := hf (pool, j) (List.mk_mem_zipIdx_iff_getElem?.mpr hj)
  by_contra hnot
  push Not at hnot
  refine hcond ?_
  simp only [Bool.and_eq_true, Bool.not_eq_true', decide_eq_true_eq, List.contains_eq_mem,
    decide_eq_false_iff_not, List.mem_map, not_exists, not_and]
  exact ⟨hnot.1, hnot.2⟩

namespace Packed

variable {g : Graph} {p p' : Plan} {done : List Handle} {h x : Handle} {n : Node}
  {range : LiveRange} {i j : Nat} {pool : Pool} (hk : Packed g p done)

include hk

/-- Placing one more layer moves none of the others. -/
theorem poolIndex_extends (hext : Extends g p p' done h) (hx : p.poolIndex x = i + 1) :
    p'.poolIndex x = i + 1 := by
  rw [hext.poolIndex_eq x (hk.mem_iff.mpr (hx ▸ Nat.succ_ne_zero i)), hx]

/-- A pool that is held at a place stays held there. -/
theorem held_extends {place : Nat} (hext : Extends g p p' done h) (hi : Held g p place i) :
    Held g p' place i := by
  obtain ⟨x, hx, hlive⟩ := hi
  exact ⟨x, hk.poolIndex_extends hext hx, hlive⟩

/-- Where no pool is free, all are in use. -/
theorem held_of_freePool?_eq_none (hg : g.Sequenced) (hn : g.get? h = some n)
    (hdone : ∀ x ∈ done, g.order.idxOf x < g.order.idxOf h)
    (hfree : p.freePool? n.preds (g.order.idxOf h) = none) (hi : i < p.pools.length) :
    Held g p (g.order.idxOf h) i := by
  have hbefore : ∀ {x}, p.poolIndex x = i + 1 → g.order.idxOf x ≤ g.order.idxOf h :=
    fun {x} hx => Nat.le_of_lt (hdone x (hk.mem_iff.mpr (hx ▸ Nat.succ_ne_zero i)))
  rcases freePool?_eq_none hfree (List.getElem?_eq_getElem hi) with ⟨x, hx, hindex⟩ | huntil
  · exact ⟨x, hindex, hbefore hindex, le_lastRead hg hn hx⟩
  · obtain ⟨x, hindex, hlast⟩ := hk.attained (List.getElem?_eq_getElem hi)
    exact ⟨x, hindex, hbefore hindex, by omega⟩

/-- The first output finds no pools, and any other opens one where all are in use. -/
theorem held_of_opens (hg : g.Sequenced) (hn : g.get? h = some n) {rest : List Handle}
    (hs : interior g = done ++ h :: rest) (hdone : ∀ x ∈ done, g.order.idxOf x < g.order.idxOf h)
    (hp : placementOf g p n ⟨g.order.idxOf h, lastRead g h⟩ = .ok (.opens j))
    (hi : i < p.pools.length) : Held g p (g.order.idxOf h) i := by
  rcases placementOf_opens hp with hfirst | hfree
  · obtain ⟨x, hx, _⟩ := hk.attained (List.getElem?_eq_getElem hi)
    have hmem : x ∈ done := hk.mem_iff.mpr (hx ▸ Nat.succ_ne_zero i)
    have hpos := List.length_pos_of_mem hmem
    have hplace := idxOf_of_interior_eq hg.nodup hs
    dsimp only at hfirst
    omega
  · exact hk.held_of_freePool?_eq_none hg hn hdone hfree hi

section Pools

variable (hh : h ∉ done) (hkeep : range.keepUntil = lastRead g h)

include hh

theorem ne_of_poolIndex (hx : p.poolIndex x = i + 1) : x ≠ h := by
  rintro rfl
  rw [hk.poolIndex_eq_zero hh] at hx
  contradiction

include hkeep

/-- In a new pool its only tenant is read last. -/
theorem attained_openPool (hi : (p.openPool h range).pools[i]? = some pool) :
    ∃ x, (p.openPool h range).poolIndex x = i + 1 ∧ lastRead g x = pool.liveUntil := by
  have hindex : ∀ x, (p.openPool h range).poolIndex x =
      if x = h then p.pools.length + 1 else p.poolIndex x :=
    fun _ => Plan.poolIndex_openPool (hk.poolIndex_eq_zero hh)
  have hpools : (p.openPool h range).pools = p.pools ++ [⟨[h], range.keepUntil⟩] := rfl
  rw [hpools, List.getElem?_append] at hi
  split at hi
  · obtain ⟨x, hx, hlast⟩ := hk.attained hi
    exact ⟨x, by rw [hindex, if_neg (hk.ne_of_poolIndex hh hx), hx], hlast⟩
  · rw [List.getElem?_singleton] at hi
    split at hi
    · injection hi with hi
      subst hi
      refine ⟨h, ?_, hkeep.symm⟩
      rw [hindex, if_pos rfl]
      omega
    · contradiction

/-- In a pool that is joined, the newcomer or an earlier tenant is read last. -/
theorem attained_joinPool (hj : j < p.pools.length)
    (hi : (p.joinPool (j + 1) h range).pools[i]? = some pool) :
    ∃ x, (p.joinPool (j + 1) h range).poolIndex x = i + 1 ∧ lastRead g x = pool.liveUntil := by
  have hindex : ∀ x, (p.joinPool (j + 1) h range).poolIndex x =
      if x = h then j + 1 else p.poolIndex x :=
    fun _ => Plan.poolIndex_joinPool (hk.poolIndex_eq_zero hh) hj
  rw [Plan.joinPool, Nat.add_sub_cancel, List.getElem?_modify] at hi
  obtain ⟨old, hold, hpool⟩ := Option.map_eq_some_iff.mp hi
  obtain ⟨x, hx, hlast⟩ := hk.attained hold
  have hx' : (p.joinPool (j + 1) h range).poolIndex x = i + 1 := by
    rw [hindex, if_neg (hk.ne_of_poolIndex hh hx), hx]
  split at hpool
  · next hij =>
      subst hij hpool
      rcases Nat.le_total range.keepUntil old.liveUntil with hle | hle
      · exact ⟨x, hx', by rw [hlast, Nat.max_eq_left hle]⟩
      · refine ⟨h, by rw [hindex, if_pos rfl], ?_⟩
        rw [← hkeep, Nat.max_eq_right hle]
  · subst hpool
    exact ⟨x, hx', hlast⟩

end Pools

section Apply

variable {placement : Placement} (hn : g.get? h = some n) (hh : h ∉ done)
  (hrange : range = ⟨g.order.idxOf h, lastRead g h⟩)
  (hplace : placementOf g p n range = .ok placement)
  (hext : Extends g p (p.apply h range placement) done h)

include hn hrange hplace in
/-- A layer that writes over its operand is noted as an overwrite. -/
theorem noted_apply {k q : Handle} {m : Node} (hmem : k ∈ done ++ [h]) (hm : g.get? k = some m)
    (hkind : m.layer.kind = .flatten) (hne : g.order.idxOf k ≠ 1) (hpreds : m.preds = [q]) :
    (p.apply h range placement).isOverwrite q k = true := by
  rcases List.mem_append.mp hmem with hmem | hmem
  · exact isOverwrite_apply.mpr (.inl (hk.noted hmem hm hkind hne hpreds))
  · rw [List.mem_singleton.mp hmem] at hm hne ⊢
    rw [hn] at hm
    injection hm with hm
    subst hm hrange
    obtain ⟨i, hi⟩ := placementOf_of_flatten hplace hkind hne hpreds
    exact isOverwrite_apply.mpr (.inr ⟨i, hi, rfl⟩)

include hplace hext

include hh in
/-- A layer that writes over an operand is in the pool of that operand. -/
theorem shared_apply {a b : Handle} (hab : (p.apply h range placement).isOverwrite a b = true) :
    (p.apply h range placement).poolIndex a ≠ 0 ∧
      (p.apply h range placement).poolIndex b = (p.apply h range placement).poolIndex a := by
  rcases isOverwrite_apply.mp hab with hold | ⟨i, rfl, rfl⟩
  · obtain ⟨ha, hb⟩ := hk.shared hold
    rw [hext.poolIndex_eq a (hk.mem_iff.mpr ha), hext.poolIndex_eq b (hk.mem_iff.mpr (hb ▸ ha))]
    exact ⟨ha, hb⟩
  · obtain hplace | ⟨_, hplace, _⟩ | ⟨q, j, hplace, _, _, _, hq⟩ := placementOf_cases hplace
    · contradiction
    · contradiction
    · injection hplace with haq hij
      subst haq hij
      rw [hk.poolIndex_extends hext hq]
      refine ⟨Nat.succ_ne_zero j, ?_⟩
      have hj := Plan.lt_of_poolIndex hq
      exact (Plan.poolIndex_joinPool (hk.poolIndex_eq_zero hh) hj).trans (if_pos rfl)

omit hext

include hh hrange

/-- Each placement leaves every pool with a tenant that is read when the pool ends. -/
theorem attained_apply (hi : (p.apply h range placement).pools[i]? = some pool) :
    ∃ x, (p.apply h range placement).poolIndex x = i + 1 ∧ lastRead g x = pool.liveUntil := by
  have hkeep : range.keepUntil = lastRead g h := by rw [hrange]
  obtain rfl | ⟨j, rfl, hfree⟩ | ⟨q, j, rfl, _, _, _, hq⟩ := placementOf_cases hplace
  · exact hk.attained_openPool hh hkeep hi
  · obtain ⟨j, pool, rfl, hpool, _, _⟩ := freePool?_eq_some hfree
    exact hk.attained_joinPool hh hkeep (List.getElem?_eq_some_iff.mp hpool).1 hi
  · exact hk.attained_joinPool hh hkeep (Plan.lt_of_poolIndex hq) hi

include hext hn

/-- Each placement leaves a place at which all pools are held. -/
theorem crowded_apply (hg : g.Sequenced) {rest : List Handle}
    (hs : interior g = done ++ h :: rest)
    (hdone : ∀ x ∈ done, g.order.idxOf x < g.order.idxOf h) :
    ∃ place < g.order.length, ∀ i < (p.apply h range placement).pools.length,
      Held g (p.apply h range placement) place i := by
  have hjoined : ∀ {q : Plan}, q.pools.length = p.pools.length → p.pools ≠ [] →
      Extends g p q done h → ∃ place < g.order.length, ∀ i < q.pools.length, Held g q place i := by
    intro q hlen hne hext
    obtain ⟨place, hplace, hall⟩ := hk.crowded hne
    exact ⟨place, hplace, fun i hi => hk.held_extends hext (hall i (hlen ▸ hi))⟩
  have hlength : ∀ j, (p.joinPool (j + 1) h range).pools.length = p.pools.length := fun j =>
    List.length_modify _ _ _
  obtain rfl | ⟨j, rfl, hfree⟩ | ⟨q, j, rfl, _, _, _, hq⟩ := placementOf_cases hplace
  · -- The new pool is in use from here on, and the others still are.
    refine ⟨g.order.idxOf h, List.idxOf_lt_length_of_mem (hg.mem_of_get? hn), fun i hi => ?_⟩
    have hlen : (p.apply h range (.opens (p.pools.length + 1))).pools.length =
        p.pools.length + 1 := by simp [Plan.apply, Plan.openPool]
    rw [hlen] at hi
    rcases Nat.lt_succ_iff_lt_or_eq.mp hi with hi | rfl
    · subst hrange
      exact hk.held_extends hext (hk.held_of_opens hg hn hs hdone hplace hi)
    · refine ⟨h, ?_, Nat.le_refl _, idxOf_le_lastRead hg hn⟩
      exact (Plan.poolIndex_openPool (hk.poolIndex_eq_zero hh)).trans (if_pos rfl)
  · obtain ⟨j, pool, rfl, hpool, _, _⟩ := freePool?_eq_some hfree
    have hj := (List.getElem?_eq_some_iff.mp hpool).1
    exact hjoined (hlength j) (List.ne_nil_of_length_pos (by omega)) hext
  · have hj := Plan.lt_of_poolIndex hq
    exact hjoined (hlength j) (List.ne_nil_of_length_pos (by omega)) hext

end Apply

end Packed

/-- One placement keeps pools packed. -/
theorem Packed.placeOne {g : Graph} {p p' : Plan} {done rest : List Handle} {h : Handle}
    {placement : Placement} (hk : Packed g p done) (hg : g.Sequenced)
    (hs : interior g = done ++ h :: rest)
    (hr : p.range? h = some ⟨g.order.idxOf h, lastRead g h⟩)
    (hp : placeOne g p h = .ok (p', placement)) : Packed g p' (done ++ [h]) := by
  have hdone : ∀ x ∈ done, g.order.idxOf x < g.order.idxOf h := fun x hx =>
    (idxOf_lt_iff hg.nodup hs (hs ▸ List.mem_append_left _ hx)).mpr hx
  have hh : h ∉ done := fun hmem => Nat.lt_irrefl _ (hdone h hmem)
  have hext := hk.toTenancy.placeOne hh hr hp
  obtain ⟨n, range, hn, hrange, hplace, rfl⟩ := placeOne_cases hp
  rw [hr] at hrange
  injection hrange with hrange
  exact ⟨hext.tenancy, hk.noted_apply hn hrange.symm hplace, hk.shared_apply hh hplace hext,
    hk.attained_apply hh hrange.symm hplace,
    fun _ => hk.crowded_apply hn hh hrange.symm hplace hext hg hs hdone⟩

/-! ## All placements -/

/-- All placements together keep the plan packed, by induction on the layers. -/
theorem Packed.placeAll {g : Graph} {p plan : Plan} {done hs : List Handle}
    (hk : Packed g p done) (hg : g.Sequenced) (hsplit : interior g = done ++ hs)
    (hr : ∀ h ∈ hs, p.range? h = some ⟨g.order.idxOf h, lastRead g h⟩)
    (hp : (placeAll g p hs).2 = .ok plan) :
    Packed g plan (interior g) ∧ plan.ranges = p.ranges := by
  induction hs generalizing p done with
  | nil =>
      injection hp with hp
      subst hp
      rw [hsplit, List.append_nil]
      exact ⟨hk, rfl⟩
  | cons h hs ih =>
      unfold Memory.placeAll at hp
      split at hp
      · contradiction
      · next p' placement hone =>
          have hk' := hk.placeOne hg hsplit (hr h List.mem_cons_self) hone
          have hranges : p'.ranges = p.ranges := by
            obtain ⟨_, _, _, _, _, rfl⟩ := placeOne_cases hone
            cases placement <;> rfl
          have hr' : ∀ k ∈ hs, p'.range? k = some ⟨g.order.idxOf k, lastRead g k⟩ := by
            intro k hk
            rw [Plan.range?, hranges]
            exact hr k (List.mem_cons_of_mem h hk)
          obtain ⟨hplan, hsame⟩ := ih hk' (by simpa using hsplit) hr' hp
          exact ⟨hplan, hsame.trans hranges⟩

/-- A plan for a graph is packed, and has the ranges of all outputs. -/
theorem packed_of_layout {g : Graph} {plan : Plan} (hg : g.Sequenced)
    (hl : (layout g).2 = .ok plan) :
    Packed g plan (interior g) ∧
      ∀ h ∈ g.order, plan.range? h = some ⟨g.order.idxOf h, lastRead g h⟩ := by
  unfold layout at hl
  split at hl
  · contradiction
  · next ranges hranges =>
      obtain ⟨hk, hsame⟩ := Packed.empty.placeAll hg (List.nil_append _).symm
        (fun h hh => range?_of_liveness hranges rfl (mem_order_of_mem_interior hh)) hl
      exact ⟨hk, fun h hh => range?_of_liveness hranges hsame hh⟩

/-! ## Outputs that share a pool -/

/-- Equivalent outputs share a pool. -/
theorem Packed.poolIndex_of_equivalent {g : Graph} {p : Plan} {done : List Handle}
    (hk : Packed g p done) {a b : Handle} (hab : p.Equivalent a b) :
    p.poolIndex a = p.poolIndex b := by
  induction hab with
  | rel a b hover => exact (hk.shared hover).2.symm
  | refl a => rfl
  | symm a b _ ih => exact ih.symm
  | trans a b c _ _ ihab ihbc => exact ihab.trans ihbc

/-- The pool of equivalent outputs. -/
def Packed.classIndex {g : Graph} {p : Plan} {done : List Handle} (hk : Packed g p done) :
    Quot p.Equivalent → Nat :=
  Quot.lift p.poolIndex fun _ _ => hk.poolIndex_of_equivalent

section Plans

variable {g : Graph} {plan : Plan} (hg : g.Sequenced) (hl : (layout g).2 = .ok plan)
  {a b h : Handle} {place : Nat}

include hg hl

/-- A layer is live from its own place to the last that reads it. -/
theorem mem_liveAt : h ∈ liveAt g plan place ↔
    h ∈ interior g ∧ g.order.idxOf h ≤ place ∧ place ≤ lastRead g h := by
  refine and_congr_right fun hh => ?_
  have hrange := (packed_of_layout hg hl).2 h (mem_order_of_mem_interior hh)
  simp [Plan.LiveAt, hrange]

/-- An output that is kept where a later one is put into its pool is equivalent to that. -/
theorem equivalent_of_lt (ha : a ∈ interior g) (hb : b ∈ interior g)
    (hlt : g.order.idxOf a < g.order.idxOf b) (hkept : g.order.idxOf b ≤ lastRead g a)
    (hindex : plan.poolIndex a = plan.poolIndex b) : plan.Equivalent a b := by
  have hk := (packed_of_layout hg hl).1
  -- On the place of the later one: where that writes over an operand, the operand shares the
  -- pool and is kept too, and both are earlier.
  induction hplace : g.order.idxOf b using Nat.strong_induction_on generalizing a b with
  | _ place ih =>
      subst hplace
      obtain ⟨xs, ys, hs⟩ := List.append_of_mem hb
      have hax : a ∈ xs := (idxOf_lt_iff hg.nodup hs ha).mp hlt
      obtain ⟨n, hn, hplaced⟩ := (placed_of_layout hg.nodup hl).2 xs b ys hs
      cases hplaced with
      | free hfree =>
          obtain ⟨hread, hle⟩ := hfree a hax hindex
          have hlast := lastRead_lt hg hn (mem_order_of_mem_interior ha) hlt hread hle
          omega
      | reused q hkind hpreds hq hqb =>
          have hqi : q ∈ interior g := hs ▸ List.mem_append_left _ hq
          have hqlt := (idxOf_lt_iff hg.nodup hs hqi).mpr hq
          have hqkept : g.order.idxOf b ≤ lastRead g q := le_lastRead hg hn (by simp [hpreds])
          have hne : g.order.idxOf b ≠ 1 := by
            have hpos := List.length_pos_of_mem hq
            have hidx := idxOf_of_interior_eq hg.nodup hs
            omega
          have hqeq : plan.Equivalent q b := .rel q b (hk.noted hb hn hkind hne hpreds)
          rcases Nat.lt_trichotomy (g.order.idxOf a) (g.order.idxOf q) with haq | haq | haq
          · have heq : plan.Equivalent a q :=
              ih _ hqlt ha hqi haq (by omega) (hindex.trans hqb.symm) rfl
            exact heq.trans a q b hqeq
          · rwa [(List.idxOf_inj (mem_order_of_mem_interior ha)).mp haq]
          · have heq : plan.Equivalent q a :=
              ih _ hlt hqi ha haq (by omega) (hqb.trans hindex.symm) rfl
            exact (heq.symm q a).trans a q b hqeq

/-- Outputs in one pool that are kept at a common place are equivalent. -/
theorem equivalent_of_liveAt (ha : a ∈ liveAt g plan place) (hb : b ∈ liveAt g plan place)
    (hindex : plan.poolIndex a = plan.poolIndex b) : plan.Equivalent a b := by
  obtain ⟨hai, hacreated, hakept⟩ := (mem_liveAt hg hl).mp ha
  obtain ⟨hbi, hbcreated, hbkept⟩ := (mem_liveAt hg hl).mp hb
  rcases Nat.lt_trichotomy (g.order.idxOf a) (g.order.idxOf b) with hab | hab | hab
  · exact equivalent_of_lt hg hl hai hbi hab (by omega) hindex
  · rw [(List.idxOf_inj (mem_order_of_mem_interior hai)).mp hab]
    exact .refl b
  · exact (equivalent_of_lt hg hl hbi hai hab (by omega) hindex.symm).symm b a

/-! ## Pools needed at a place -/

/-- A place needs the pools whose outputs are kept there. -/
theorem demand_eq :
    demand g plan place = (Set.image plan.poolIndex (liveAt g plan place)).ncard := by
  have hk := (packed_of_layout hg hl).1
  have himage : Set.image plan.poolIndex (liveAt g plan place) =
      Set.image hk.classIndex (Set.image (Quot.mk plan.Equivalent) (liveAt g plan place)) := by
    rw [Set.image_image]
    rfl
  have hinj : Set.InjOn hk.classIndex
      (Set.image (Quot.mk plan.Equivalent) (liveAt g plan place)) := by
    rintro _ ⟨a, ha, rfl⟩ _ ⟨b, hb, rfl⟩ hab
    exact Quot.sound (equivalent_of_liveAt hg hl ha hb hab)
  rw [demand, himage, hinj.ncard_image]

/-- Layers in between have a pool of the plan. -/
theorem poolIndex_mem_Icc (hh : h ∈ interior g) :
    plan.poolIndex h ∈ Finset.Icc 1 plan.pools.length := by
  have hne := (packed_of_layout hg hl).1.mem_iff.mp hh
  exact Finset.mem_Icc.mpr ⟨Nat.pos_of_ne_zero hne, Plan.poolIndex_le_length⟩

/-- A set of layers cannot be in more pools than there are. -/
theorem ncard_poolIndex_le {s : Set Handle} (hs : ∀ h ∈ s, h ∈ interior g) :
    (Set.image plan.poolIndex s).ncard ≤ plan.pools.length := by
  have hsub : Set.image plan.poolIndex s ⊆ (Finset.Icc 1 plan.pools.length : Finset Nat) := by
    rintro _ ⟨h, hh, rfl⟩
    exact poolIndex_mem_Icc hg hl (hs h hh)
  calc (Set.image plan.poolIndex s).ncard
      ≤ ((Finset.Icc 1 plan.pools.length : Finset Nat) : Set Nat).ncard :=
        Set.ncard_le_ncard hsub (Finset.finite_toSet _)
    _ = plan.pools.length := by rw [Set.ncard_coe_finset, Nat.card_Icc, Nat.add_sub_cancel]

omit hg hl in
/-- Where every pool has an output of its own, telling pools apart takes as many values. -/
theorem length_le_ncard {ι : Type*} {f : Handle → ι} {s : Set Handle} (hs : s.Finite)
    (hheld : ∀ i < plan.pools.length, ∃ x ∈ s, plan.poolIndex x = i + 1)
    (hf : ∀ x ∈ s, ∀ y ∈ s, f x = f y → plan.poolIndex x = plan.poolIndex y) :
    plan.pools.length ≤ (Set.image f s).ncard := by
  choose! x hx hindex using hheld
  have hinj : Set.InjOn (fun i => f (x i)) (Finset.range plan.pools.length : Finset Nat) := by
    intro i hi j hj hij
    have hi := Finset.mem_range.mp hi
    have hj := Finset.mem_range.mp hj
    have hsame := hf _ (hx i hi) _ (hx j hj) hij
    rw [hindex i hi, hindex j hj] at hsame
    exact Nat.succ.inj hsame
  have hsub : Set.image (fun i => f (x i)) (Finset.range plan.pools.length : Finset Nat) ⊆
      Set.image f s := by
    rintro _ ⟨i, hi, rfl⟩
    exact ⟨x i, hx i (Finset.mem_range.mp hi), rfl⟩
  calc plan.pools.length
      = (Set.image (fun i => f (x i)) (Finset.range plan.pools.length : Finset Nat)).ncard := by
        rw [hinj.ncard_image, Set.ncard_coe_finset, Finset.card_range]
    _ ≤ (Set.image f s).ncard := Set.ncard_le_ncard hsub (hs.image f)

omit hg hl in
theorem finite_liveAt : (liveAt g plan place).Finite :=
  (List.finite_toSet (interior g)).subset fun _ hh => hh.1

/-- Unless there are no pools, all of them hold outputs that are kept at a common place. -/
theorem exists_liveAt (hne : plan.pools ≠ []) :
    ∃ place < g.order.length, ∀ i < plan.pools.length,
      ∃ x ∈ liveAt g plan place, plan.poolIndex x = i + 1 := by
  have hk := (packed_of_layout hg hl).1
  obtain ⟨place, hplace, hheld⟩ := hk.crowded hne
  refine ⟨place, hplace, fun i hi => ?_⟩
  obtain ⟨x, hx, hlive⟩ := hheld i hi
  have hxi : x ∈ interior g := hk.mem_iff.mpr (hx ▸ Nat.succ_ne_zero i)
  exact ⟨x, (mem_liveAt hg hl).mpr ⟨hxi, hlive⟩, hx⟩

/-- The largest demand is the number of pools. -/
theorem sup_demand_eq :
    (Finset.range g.order.length).sup (demand g plan) = plan.pools.length := by
  refine Nat.le_antisymm (Finset.sup_le fun place _ => ?_) ?_
  · rw [demand_eq hg hl]
    exact ncard_poolIndex_le hg hl fun _ hh => hh.1
  · by_cases hne : plan.pools = []
    · rw [hne]
      exact Nat.zero_le _
    · obtain ⟨place, hplace, hheld⟩ := exists_liveAt hg hl hne
      calc plan.pools.length
          ≤ (Set.image plan.poolIndex (liveAt g plan place)).ncard :=
            length_le_ncard finite_liveAt hheld fun _ _ _ _ hxy => hxy
        _ = demand g plan place := (demand_eq hg hl).symm
        _ ≤ (Finset.range g.order.length).sup (demand g plan) :=
            Finset.le_sup (Finset.mem_range.mpr hplace)

/-! ## Assignments -/

/-- Ranges overlap when both layers are live at some place. -/
theorem overlaps_iff {ra rb : LiveRange} (hai : a ∈ interior g) (hbi : b ∈ interior g)
    (hra : plan.range? a = some ra) (hrb : plan.range? b = some rb) :
    ra.overlaps rb = true ↔ ∃ place, a ∈ liveAt g plan place ∧ b ∈ liveAt g plan place := by
  have hranges := (packed_of_layout hg hl).2
  have hkept : ∀ {h}, h ∈ interior g → g.order.idxOf h ≤ lastRead g h := by
    intro h hh
    obtain ⟨n, hn⟩ := hg.exists_get? (mem_order_of_mem_interior hh)
    exact idxOf_le_lastRead hg hn
  rw [hranges a (mem_order_of_mem_interior hai)] at hra
  rw [hranges b (mem_order_of_mem_interior hbi)] at hrb
  injection hra with hra
  injection hrb with hrb
  subst hra hrb
  simp only [LiveRange.overlaps, Bool.and_eq_true, decide_eq_true_eq, mem_liveAt hg hl]
  constructor
  · rintro ⟨hab, hba⟩
    refine ⟨max (g.order.idxOf a) (g.order.idxOf b), ⟨hai, Nat.le_max_left _ _, ?_⟩,
      hbi, Nat.le_max_right _ _, ?_⟩
    · exact Nat.max_le.mpr ⟨hkept hai, hba⟩
    · exact Nat.max_le.mpr ⟨hab, hkept hbi⟩
  · rintro ⟨place, ⟨_, ha, ha'⟩, _, hb, hb'⟩
    omega

/-- The plan itself keeps outputs apart. -/
theorem separates_poolIndex : Separates g plan plan.poolIndex := by
  intro a ha b hb ra rb hra hrb hover hne hindex
  obtain ⟨place, hap, hbp⟩ := (overlaps_iff hg hl ha hb hra hrb).mp hover
  exact hne (equivalent_of_liveAt hg hl hap hbp hindex)

/-- No assignment that keeps outputs apart has fewer values than the plan has pools. -/
theorem length_le_of_separates {ι : Type*} {f : Handle → ι} (hf : Separates g plan f) :
    plan.pools.length ≤ (Set.image f {h | h ∈ interior g}).ncard := by
  obtain ⟨hk, hranges⟩ := packed_of_layout hg hl
  by_cases hne : plan.pools = []
  · rw [hne]
    exact Nat.zero_le _
  · obtain ⟨place, _, hheld⟩ := exists_liveAt hg hl hne
    refine (length_le_ncard finite_liveAt hheld fun x hx y hy hxy => ?_).trans
      (Set.ncard_le_ncard (Set.image_mono fun _ hh => hh.1)
        ((List.finite_toSet (interior g)).image f))
    by_contra hdiff
    have hrx := hranges x (mem_order_of_mem_interior hx.1)
    have hry := hranges y (mem_order_of_mem_interior hy.1)
    refine hf x hx.1 y hy.1 _ _ hrx hry ?_ (fun heq => ?_) hxy
    · exact (overlaps_iff hg hl hx.1 hy.1 hrx hry).mpr ⟨place, hx, hy⟩
    · exact hdiff (hk.poolIndex_of_equivalent heq)

end Plans

/-- The number of pools is the largest demand at any place.  The plan keeps inequivalent
outputs apart that are kept at a common place, and no assignment that does so gets along with
fewer values. -/
theorem pools_eq_sup_demand {w w' : Workspace} {plan : Plan} (hg : w.graph.Sequenced)
    (ha : allocate w = .ok plan w') :
    plan.pools.length = (Finset.range w.graph.order.length).sup (demand w.graph plan) ∧
      Separates w.graph plan plan.poolIndex ∧
      (Set.image plan.poolIndex {h | h ∈ interior w.graph}).ncard = plan.pools.length ∧
      ∀ {ι : Type*} (f : Handle → ι), Separates w.graph plan f →
        plan.pools.length ≤ (Set.image f {h | h ∈ interior w.graph}).ncard := by
  have hl := (exists_allocate.mp ⟨w', ha⟩).1
  have hseparates := separates_poolIndex hg hl
  refine ⟨(sup_demand_eq hg hl).symm, hseparates, Nat.le_antisymm ?_ ?_, fun f hf => ?_⟩
  · exact ncard_poolIndex_le hg hl fun _ hh => hh
  · exact length_le_of_separates hg hl hseparates
  · exact length_le_of_separates hg hl hf

/-- Calls that build two layers in a row that write over their operands, each of which has
another reader, and a layer that has none. -/
def overwrittenTwice : List Edit := [
  .addInput (.source "x" [1, 2]),
  .insert ⟨"a", [[1, 2]], [[1, 2]], .float32, .activation .relu⟩ [0] [],
  .insert ⟨"f", [[1, 2]], [[2]], .float32, .flatten⟩ [1] [],
  .insert ⟨"g", [[2]], [[2]], .float32, .flatten⟩ [2] [],
  .insert ⟨"b", [[1, 2]], [[2]], .float32, .activation .relu⟩ [1] [],
  .insert ⟨"r", [[2]], [[2]], .float32, .activation .relu⟩ [2] [],
  .insert ⟨"c", [[2], [2]], [[2]], .float32, .add .linear⟩ [3, 4] [],
  .insert ⟨"d", [[2]], [[2]], .float32, .activation .relu⟩ [6] [],
  .insert ⟨"e", [[2]], [[2]], .float32, .activation .relu⟩ [7] []]

def overwrittenPlan : Plan where
  pools := [⟨[1, 2, 3, 7], 8⟩, ⟨[4], 6⟩, ⟨[5, 6], 7⟩]
  ranges := [(0, ⟨0, 1⟩), (1, ⟨1, 4⟩), (2, ⟨2, 5⟩), (3, ⟨3, 6⟩), (4, ⟨4, 6⟩), (5, ⟨5, 5⟩),
    (6, ⟨6, 7⟩), (7, ⟨7, 8⟩), (8, ⟨8, 8⟩)]
  overwrites := [(1, 2), (2, 3)]

/-- Behind two overwrites in a row the plan has three pools, and no two would do. -/
theorem pools_overwrittenTwice :
    let w := history {} overwrittenTwice
    w.graph.Sequenced ∧ (∃ w', allocate w = .ok overwrittenPlan w') ∧
      (Finset.range 9).sup (demand w.graph overwrittenPlan) = 3 ∧
      ∀ f : Handle → Bool, ¬ Separates w.graph overwrittenPlan f := by
  intro w
  have hw : w.graph.Sequenced :=
    (Workspace.wellFormed_afterAll wellFormed_empty overwrittenTwice).toSequenced
  obtain ⟨w', ha⟩ : ∃ w', allocate w = .ok overwrittenPlan w' :=
    exists_allocate.mpr ⟨by decide, 16, by decide⟩
  obtain ⟨hsup, _, _, hleast⟩ := pools_eq_sup_demand hw ha
  refine ⟨hw, ⟨w', ha⟩, hsup.symm, fun f hf => ?_⟩
  have hfew := (hleast f hf).trans (Set.ncard_le_card _)
  rw [Nat.card_eq_fintype_card] at hfew
  revert hfew
  decide

end NeuralC.Memory
