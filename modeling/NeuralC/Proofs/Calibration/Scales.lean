import NeuralC.Proofs.Compile.Annotate
import NeuralC.Proofs.Simplify.Activation

/-!
# NeuralC.Proofs.Calibration.Scales

Folding activations keeps the scale factors with which layers read their
operands.  A producer takes over the output scale factor of the activation that
is folded into it, and all layers that read the activation read the producer
instead; no layer read the producer itself, so none sees its scale factor change
(`Merged.readsAlike`).

`ReadsAlike` is kept by one fold and composes, so it holds of all of them: also
where activations stand in a row and one producer takes over one scale factor
after another (`fuseActivation_readsAlike`).
-/

namespace NeuralC

/-- The record without what it says of the output. -/
def QuantRecord.withoutOutput (q : QuantRecord) : QuantRecord :=
  { q with outputScale := none, outputRound := none }

/-- The output scale factor in the record of a layer. -/
def Graph.outputScale? (g : Graph) (k : Handle) : Option (Option Int) :=
  ((g.get? k).bind (·.quant)).map (·.outputScale)

namespace Simplify

open NeuralC.Graph

/-! ## Readers -/

/-- Every layer of `g'` is one of `g`.  It reads operands with the output scale factors that it
read before, one by one, and only what its record says of its own output may have changed. -/
def ReadsAlike (g g' : Graph) : Prop :=
  ∀ k n', g'.get? k = some n' → ∃ n, g.get? k = some n ∧
    n'.preds.map g'.outputScale? = n.preds.map g.outputScale? ∧
    n'.quant.map (·.withoutOutput) = n.quant.map (·.withoutOutput)

/-- Every operand has a record, and so an output scale. -/
theorem exists_record {g : Graph} (ha : g.All Node.Recorded) (hg : g.Linked) {k x : Handle}
    {n : Node} (hn : g.get? k = some n) (hx : x ∈ n.preds) :
    ∃ m q, g.get? x = some m ∧ m.quant = some q ∧ g.outputScale? x = some q.outputScale := by
  obtain ⟨m, hm⟩ := contains_iff.mp (hg.pred_live hn hx)
  obtain ⟨q, hq⟩ := Option.isSome_iff_exists.mp (ha x m hm)
  exact ⟨m, q, hm, hq, by rw [outputScale?, hm, Option.bind_some, hq, Option.map_some]⟩

namespace ReadsAlike

variable {g g₁ g' : Graph}

theorem refl (g : Graph) : ReadsAlike g g := fun _ n hn => ⟨n, hn, rfl, rfl⟩

theorem trans (h₁ : ReadsAlike g g₁) (h₂ : ReadsAlike g₁ g') : ReadsAlike g g' := by
  intro k n' hn'
  obtain ⟨n₁, hn₁, hpreds₂, hquant₂⟩ := h₂ k n' hn'
  obtain ⟨n, hn, hpreds₁, hquant₁⟩ := h₁ k n₁ hn₁
  exact ⟨n, hn, hpreds₂.trans hpreds₁, hquant₂.trans hquant₁⟩

/-- Records are there after the step if they were before. -/
theorem recorded (h : ReadsAlike g g') (hg : g.All Node.Recorded) : g'.All Node.Recorded := by
  intro k n' hn'
  obtain ⟨n, hn, _, hquant⟩ := h k n' hn'
  have hsome := congrArg Option.isSome hquant
  rw [Option.isSome_map, Option.isSome_map] at hsome
  rw [Node.Recorded, hsome]
  exact hg k n hn

end ReadsAlike

/-! ## One activation -/

/-- Taking up an activation changes a record at most in its output scale. -/
theorem withoutOutput_activated (f : Activation) (m : Node) (q : Option QuantRecord) :
    (activated f q m).quant.map (·.withoutOutput) = m.quant.map (·.withoutOutput) := by
  cases hr : m.quant <;> cases q <;> simp [activated, hr, outputLike, QuantRecord.withoutOutput]

namespace Merged

variable {g g' : Graph} {h p : Handle} {n m : Node} {outer inner f : Activation}
  (hm : Merged g g' h p n m outer inner f) (hg : g.Linked)

include hm hg

/-- The producer writes with the scale factor of the activation. -/
theorem outputScale?_producer (ha : g.All Node.Recorded) :
    g'.outputScale? p = g.outputScale? h := by
  obtain ⟨q, hq⟩ := Option.isSome_iff_exists.mp (ha h n hm.get?_activation)
  obtain ⟨r, hr⟩ := Option.isSome_iff_exists.mp (ha p m hm.get?_producer)
  rw [outputScale?, outputScale?, hm.get?_merged hg, hm.get?_activation]
  simp [Node.bypass, activated, hq, hr, outputLike]

/-- All other layers write with the scale factors they had. -/
theorem outputScale?_of_ne {k : Handle} (hk : k ≠ h) (hkp : k ≠ p) :
    g'.outputScale? k = g.outputScale? k := by
  rw [outputScale?, outputScale?, (linked_modify hg).get?_delete hm.delete_eq
    (hm.get?_modify_activation hg), if_neg hk, get?_modify, if_neg hkp.symm]
  cases g.get? k <;> rfl

/-- What has become of a layer that stays. -/
theorem exists_of_get? {k : Handle} {r' : Node} (hr' : g'.get? k = some r') :
    ∃ r, g.get? k = some r ∧ k ≠ h ∧ r'.preds = r.preds.map (fun x => if x = h then p else x) ∧
      r'.quant.map (·.withoutOutput) = r.quant.map (·.withoutOutput) := by
  have hmem := (hm.linked hg).mem_of_get? hr'
  rw [hm.order_eq, hg.nodup.mem_erase_iff] at hmem
  obtain ⟨r, hr⟩ := hg.exists_get? hmem.2
  refine ⟨r, hr, hmem.1, ?_⟩
  rw [← substitute_singleton, ← hm.preds_eq]
  by_cases hkp : k = p
  · subst hkp
    rw [hm.get?_producer, Option.some.injEq] at hr
    rw [hm.get?_merged hg, Option.some.injEq] at hr'
    subst hr hr'
    exact ⟨rfl, withoutOutput_activated f m n.quant⟩
  · rw [hm.get?_kept hg hmem.1 hkp hr, Option.some.injEq] at hr'
    subst hr'
    exact ⟨rfl, rfl⟩

/-- Where a layer read the activation it reads the producer, with the same scale factor, and no
layer has read the producer before. -/
theorem readsAlike (ha : g.All Node.Recorded) : ReadsAlike g g' := by
  intro k r' hr'
  obtain ⟨r, hr, hk, hpreds, hquant⟩ := hm.exists_of_get? hg hr'
  refine ⟨r, hr, ?_, hquant⟩
  rw [hpreds, List.map_map]
  refine List.map_congr_left fun x hx => ?_
  rw [Function.comp_apply]
  split
  · next hxh => rw [hxh, hm.outputScale?_producer hg ha]
  · next hxh =>
    -- The only scale factor that changes is that of the producer, which nothing else reads.
    have hxp : x ≠ p := fun he => hm.not_mem_preds hg hk hr (he ▸ hx)
    rw [hm.outputScale?_of_ne hg hxh hxp]

end Merged

/-! ## All activations -/

/-- Fusing activations keeps the scale that each layer reads. -/
theorem readsAlike_fuseActivationAll {hs : List Handle} {count : Nat} {w w' : Workspace}
    (hg : w.graph.Linked) (ha : w.graph.All Node.Recorded)
    (hf : fuseActivationAll hs w = .ok count w') :
    w'.graph.Linked ∧ ReadsAlike w.graph w'.graph :=
  fuseActivationAll_induction (P := fun _ g => g.Linked ∧ ReadsAlike w.graph g) (fun h _ => h)
    (fun h hm => ⟨hm.linked h.1, h.2.trans (hm.readsAlike h.1 (h.2.recorded ha))⟩)
    ⟨hg, .refl _⟩ hf

/-- Folding activations keeps scale factors consistent in an accepted graph of layers with
records.  A layer that stays has as many operands as before, and each has the output scale
factor of the operand in its place before.  Of its own record only the output scale factor and
the output rounding may have changed. -/
theorem fuseActivation_readsAlike {w w' : Workspace} {count : Nat}
    (hv : w.graph.verify = .ok ()) (hl : w.graph.Listed) (ha : w.graph.All Node.Recorded)
    (hf : fuseActivation w = .ok count w') {k : Handle} {n' : Node}
    (hn' : w'.graph.get? k = some n') :
    ∃ n, w.graph.get? k = some n ∧ n'.preds.length = n.preds.length ∧
      (∀ (i : Nat) (x x' : Handle), n.preds[i]? = some x → n'.preds[i]? = some x' →
        ∃ m q m' q', w.graph.get? x = some m ∧ m.quant = some q ∧
          w'.graph.get? x' = some m' ∧ m'.quant = some q' ∧ q'.outputScale = q.outputScale) ∧
      ∃ q q', n.quant = some q ∧ n'.quant = some q' ∧
        q' = { q with outputScale := q'.outputScale, outputRound := q'.outputRound } := by
  have hg := linked_of_verify hv hl
  obtain ⟨hg', hreads⟩ :=
    readsAlike_fuseActivationAll hg ha (fuseActivationAll_of_fuseActivation hf)
  have ha' : w'.graph.All Node.Recorded := hreads.recorded ha
  obtain ⟨n, hn, hpreds, hquant⟩ := hreads k n' hn'
  refine ⟨n, hn, ?_, fun i x x' hx hx' => ?_, ?_⟩
  · have hlen := congrArg List.length hpreds
    rwa [List.length_map, List.length_map] at hlen
  · have hscale := congrArg (·[i]?) hpreds
    simp only [List.getElem?_map, hx, hx', Option.map_some, Option.some.injEq] at hscale
    obtain ⟨m, q, hm, hq, hmq⟩ := exists_record ha hg hn (List.mem_of_getElem? hx)
    obtain ⟨m', q', hm', hq', hmq'⟩ := exists_record ha' hg' hn' (List.mem_of_getElem? hx')
    rw [hmq, hmq', Option.some.injEq] at hscale
    exact ⟨m, q, m', q', hm, hq, hm', hq', hscale⟩
  · obtain ⟨q, hq⟩ := Option.isSome_iff_exists.mp (ha k n hn)
    obtain ⟨q', hq'⟩ := Option.isSome_iff_exists.mp (ha' k n' hn')
    refine ⟨q, q', hq, hq', ?_⟩
    rw [hq, hq', Option.map_some, Option.map_some, Option.some.injEq] at hquant
    cases q
    cases q'
    simp_all [QuantRecord.withoutOutput]

/-- The graph with a record of its own at every layer. -/
def withRecords (record : Handle → QuantRecord) (g : Graph) : Graph :=
  { g with slots := g.slots.mapIdx fun k s => s.map fun n => { n with quant := some (record k) } }

theorem get?_withRecords (record : Handle → QuantRecord) (g : Graph) (k : Handle) :
    (withRecords record g).get? k =
      (g.get? k).map fun n => { n with quant := some (record k) } := by
  rw [get?, get?, withRecords, List.getElem?_mapIdx]
  cases g.slots[k]? <;> simp

theorem linked_withRecords (record : Handle → QuantRecord) {g : Graph} (hg : g.Linked) :
    (withRecords record g).Linked := by
  refine hg.of_edges rfl fun k => ⟨_, ?_, get?_withRecords record g k⟩
  exact fun _ => ⟨rfl, rfl⟩

/-- Every layer has a record then. -/
theorem recorded_withRecords (record : Handle → QuantRecord) (g : Graph) :
    (withRecords record g).All Node.Recorded := by
  intro k n hn
  rw [get?_withRecords] at hn
  obtain ⟨_, _, rfl⟩ := Option.map_eq_some_iff.mp hn
  rfl

/-- Two activations in a row are folded into one layer, which then writes with the scale factor
of the second; the layer behind them reads it there. -/
theorem fuseActivation_clippedThrice :
    let g := withRecords (fun k => ⟨.integer, 8, 16, some 0, none, some k, none, some .floor⟩)
      (history {} clippedThrice).graph
    g.verify = .ok () ∧ g.Listed ∧ g.All Node.Recorded ∧
      ∃ w' n n', fuseActivation ⟨g, {}⟩ = .ok 3 w' ∧ g.get? 4 = some n ∧ n.preds = [3] ∧
        w'.graph.get? 4 = some n' ∧ n'.preds = [1] ∧
        ∃ m q m' q', g.get? 3 = some m ∧ m.quant = some q ∧ w'.graph.get? 1 = some m' ∧
          m'.quant = some q' ∧ q'.outputScale = q.outputScale := by
  intro g
  have hv : g.verify = .ok () := by decide
  have hlinked : g.Linked :=
    linked_withRecords _ (Workspace.wellFormed_afterAll wellFormed_empty clippedThrice).toLinked
  have ha : g.All Node.Recorded := recorded_withRecords _ _
  have hrun : Work.leaves (fun count w' => decide (count = 3 ∧
      (w'.graph.get? 4).map Node.preds = some [1])) (fuseActivation ⟨g, {}⟩) = true := by
    decide +kernel
  obtain ⟨_, w', hf, hleft⟩ := Work.exists_of_leaves hrun
  obtain ⟨rfl, hread⟩ := of_decide_eq_true hleft
  obtain ⟨n', hn', hpreds'⟩ := Option.map_eq_some_iff.mp hread
  obtain ⟨n, hn, _, hscale, _⟩ :=
    fuseActivation_readsAlike (w := ⟨g, {}⟩) hv hlinked.listed ha hf hn'
  have hpreds : n.preds = [3] := by
    cases hn
    rfl
  refine ⟨hv, hlinked.listed, ha, w', n, n', hf, hn, hpreds, hn', hpreds', ?_⟩
  exact hscale 0 3 1 (by rw [hpreds]; rfl) (by rw [hpreds']; rfl)

end Simplify

end NeuralC
