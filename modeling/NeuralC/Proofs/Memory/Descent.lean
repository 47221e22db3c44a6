import NeuralC.Proofs.Memory.Partition

/-!
# NeuralC.Proofs.Memory.Descent

Which outputs of one pool may be kept at a common place.  A layer may write over
an output that others still read, and that may happen to one output several times
or over and over.  So outputs that are kept together need not have been written
over one another; they descend from one output of the pool.

Outputs that are kept together are linked by pairs of operand and layer, in
whatever direction (`equivalent_of_liveAt`).  A layer writes over one operand at
most (`preds_of_isOverwrite`), so going back along the pairs never branches, and
two outputs that are linked lead back to a common one.
-/

namespace NeuralC.Memory

open NeuralC.Graph
open Relation

/-- The output of `b` is that of `a`, or written over it, directly or over others. -/
def Plan.Descends (p : Plan) (a b : Handle) : Prop :=
  ReflTransGen (fun a b => p.isOverwrite a b = true) a b

section Plans

variable {g : Graph} {plan : Plan} (hl : (layout g).2 = .ok plan) {a b : Handle}

include hl

/-- What a layer writes over is its only operand. -/
theorem preds_of_isOverwrite (hab : plan.isOverwrite a b = true) :
    ∃ n, g.get? b = some n ∧ n.preds = [a] := by
  have hwalk := layout_induction (P := fun p _ => ∀ a b, p.isOverwrite a b = true →
    ∃ n, g.get? b = some n ∧ n.preds = [a]) ?_ ?_ hl
  · exact hwalk.1 a b hab
  · intro p p' _ h placement hp hone a b hab
    obtain ⟨n, range, hn, _, hplace, rfl⟩ := placeOne_cases hone
    rcases isOverwrite_apply.mp hab with hold | ⟨i, rfl, rfl⟩
    · exact hp a b hold
    · obtain hplace | ⟨_, hplace, _⟩ | ⟨q, j, hplace, _, _, hpreds, _⟩ := placementOf_cases hplace
      · contradiction
      · contradiction
      · injection hplace with haq _
        exact ⟨n, hn, haq ▸ hpreds⟩
  · simp [Plan.isOverwrite, Plan.empty]

/-- Outputs that are linked by layers which write over their operands lead back to a common
one. -/
theorem descends_of_equivalent (hab : plan.Equivalent a b) :
    ∃ c, plan.Descends c a ∧ plan.Descends c b := by
  let back := Function.swap fun a b => plan.isOverwrite a b = true
  have hunique : ∀ a b c, back a b → back a c → ∃ d, ReflGen back b d ∧ ReflTransGen back c d := by
    intro a b c hb hc
    obtain ⟨n, hn, hnb⟩ := preds_of_isOverwrite hl hb
    obtain ⟨m, hm, hmc⟩ := preds_of_isOverwrite hl hc
    rw [hn] at hm
    injection hm with hm
    subst hm
    injection hnb.symm.trans hmc with hbc
    exact ⟨b, .refl, hbc ▸ .refl⟩
  have hjoin := (equivalence_join_reflTransGen hunique).eqvGen_iff.mp
    (EqvGen.mono (fun a b hover => ⟨a, .refl, .single hover⟩) a b hab)
  obtain ⟨c, hac, hbc⟩ := hjoin
  exact ⟨c, reflTransGen_swap.mp hac, reflTransGen_swap.mp hbc⟩

end Plans

/-- What descends from a layer by overwriting shares its memory on purpose. -/
theorem Plan.Descends.equivalent {p : Plan} {a b : Handle} (hab : p.Descends a b) :
    p.Equivalent a b := by
  induction hab with
  | refl => exact .refl a
  | tail _ hover ih => exact ih.trans _ _ _ (.rel _ _ hover)

/-- **Outputs of one pool whose ranges overlap descend from a common output of that pool.**
Outputs of one pool that do not are kept at no common place. -/
theorem overlapping_descend {w w' : Workspace} {plan : Plan} (hg : w.graph.Sequenced)
    (ha : allocate w = .ok plan w') :
    ∀ pool ∈ plan.pools, ∀ a ∈ pool.tenants, ∀ b ∈ pool.tenants,
      ∃ ra rb, plan.range? a = some ra ∧ plan.range? b = some rb ∧
        (ra.overlaps rb = true → ∃ c ∈ pool.tenants, plan.Descends c a ∧ plan.Descends c b) ∧
        ((¬ ∃ c ∈ pool.tenants, plan.Descends c a ∧ plan.Descends c b) →
          ∀ place, ¬ (plan.LiveAt place a ∧ plan.LiveAt place b)) := by
  intro pool hpool a hat b hbt
  have hl := (exists_allocate.mp ⟨w', ha⟩).1
  obtain ⟨hk, hranges⟩ := packed_of_layout hg hl
  have hai := (tenants_sublist hl hpool).subset hat
  have hbi := (tenants_sublist hl hpool).subset hbt
  obtain ⟨k, hkpool⟩ := List.mem_iff_getElem?.mp hpool
  have hindex : ∀ {x}, plan.poolIndex x = k + 1 ↔ x ∈ pool.tenants := by
    intro x
    rw [poolIndex_eq_succ_iff hl hg.nodup]
    simp [hkpool]
  have hcommon : ∀ {place}, plan.LiveAt place a → plan.LiveAt place b →
      ∃ c ∈ pool.tenants, plan.Descends c a ∧ plan.Descends c b := by
    intro place hla hlb
    have hab := equivalent_of_liveAt hg hl ⟨hai, hla⟩ ⟨hbi, hlb⟩
      ((hindex.mpr hat).trans (hindex.mpr hbt).symm)
    obtain ⟨c, hca, hcb⟩ := descends_of_equivalent hl hab
    refine ⟨c, hindex.mp ?_, hca, hcb⟩
    rw [hk.poolIndex_of_equivalent hca.equivalent]
    exact hindex.mpr hat
  have hra := hranges a (mem_order_of_mem_interior hai)
  have hrb := hranges b (mem_order_of_mem_interior hbi)
  refine ⟨_, _, hra, hrb, fun hover => ?_, fun hnone place hlive => ?_⟩
  · obtain ⟨place, hla, hlb⟩ := (overlaps_iff hg hl hai hbi hra hrb).mp hover
    exact hcommon hla.2 hlb.2
  · exact hnone (hcommon hlive.1 hlive.2)

/-- Calls that build two layers that write over the same operand, and a layer behind them that
uses its pool once more. -/
def flattenedTwice : List Edit := [
  .addInput (.source "x" [1, 2]),
  .insert ⟨"a", [[1, 2]], [[1, 2]], .float32, .activation .relu⟩ [0] [],
  .insert ⟨"f", [[1, 2]], [[2]], .float32, .flatten⟩ [1] [],
  .insert ⟨"g", [[1, 2]], [[2]], .float32, .flatten⟩ [1] [],
  .insert ⟨"c", [[2], [2]], [[2]], .float32, .add .linear⟩ [2, 3] [],
  .insert ⟨"d", [[2]], [[2]], .float32, .activation .relu⟩ [4] [],
  .insert ⟨"e", [[2]], [[2]], .float32, .activation .relu⟩ [5] []]

def flattenedPlan : Plan where
  pools := [⟨[1, 2, 3, 5], 6⟩, ⟨[4], 5⟩]
  ranges := [(0, ⟨0, 1⟩), (1, ⟨1, 3⟩), (2, ⟨2, 4⟩), (3, ⟨3, 4⟩), (4, ⟨4, 5⟩), (5, ⟨5, 6⟩),
    (6, ⟨6, 6⟩)]
  overwrites := [(1, 2), (1, 3)]

/-- Two layers that write over the same operand overlap, and descend from it. -/
theorem overlapping_flattenedTwice :
    let w := history {} flattenedTwice
    w.graph.Sequenced ∧ (∃ w', allocate w = .ok flattenedPlan w') ∧
      flattenedPlan.isOverwrite 2 3 = false ∧ flattenedPlan.isOverwrite 3 2 = false ∧
      ∃ ra rb, flattenedPlan.range? 2 = some ra ∧ flattenedPlan.range? 3 = some rb ∧
        ra.overlaps rb = true ∧
        ∃ c ∈ [1, 2, 3, 5], flattenedPlan.Descends c 2 ∧ flattenedPlan.Descends c 3 := by
  intro w
  have hw : w.graph.Sequenced :=
    (Workspace.wellFormed_afterAll wellFormed_empty flattenedTwice).toSequenced
  obtain ⟨w', ha⟩ : ∃ w', allocate w = .ok flattenedPlan w' :=
    exists_allocate.mpr ⟨by decide, 12, by decide⟩
  obtain ⟨ra, rb, hra, hrb, hcommon, _⟩ := overlapping_descend hw ha ⟨[1, 2, 3, 5], 6⟩
    (by decide) 2 (by decide) 3 (by decide)
  have hover : ra.overlaps rb = true := by
    injection hra with hra
    injection hrb with hrb
    subst hra hrb
    decide
  exact ⟨hw, ⟨w', ha⟩, by decide, by decide, ra, rb, hra, hrb, hover, hcommon hover⟩

end NeuralC.Memory
