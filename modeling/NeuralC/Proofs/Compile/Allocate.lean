import NeuralC.Proofs.Compile.Safe
import NeuralC.Proofs.Memory.Refusal

/-!
# NeuralC.Proofs.Compile.Allocate

Memory planning is safe.  It is refused only for a layer that cannot write over its
operand, which is said about the model.  The plan holds layers of the graph only,
so their sizes can be looked up; what is left to tolerate is a plan of too many bytes
(`ensures_allocate`).
-/

namespace NeuralC.Memory

open NeuralC.Graph

variable {Large : Graph → Prop} {large : Prop}

/-- What is said where there is no layout is about the model. -/
theorem safe_layout {g : Graph} (hg : g.Linked) : Safe large (layout g).2 := by
  rcases layout_cases hg.toSequenced with ⟨_, plan, hl⟩ | ⟨_, n, _, hl⟩
  · rw [hl]
    exact safe_ok plan
  · rw [hl, safe_error, strandedFailure, strandedCause]
    split
    · rfl
    · rfl

theorem ensures_notePlacement {g : Graph} {h : Handle} {placement : Placement} {w : Workspace} :
    Work.Ensures Large (notePlacement g h placement) w fun _ v => v.graph = w.graph := by
  cases placement with
  | opens i =>
      simp only [notePlacement, Work.ensures_bind, Work.ensures_count]
      split
      · exact Work.ensures_note.mpr rfl
      · exact Work.ensures_pure.mpr rfl
  | reuses i => exact Work.ensures_note.mpr rfl
  | overwrites q i => exact Work.ensures_note.mpr rfl

/-- Reporting the placements leaves the graph as it is. -/
theorem ensures_notePlacements {g : Graph} {made : List (Handle × Placement)} {w : Workspace} :
    Work.Ensures Large (notePlacements g made) w fun _ v => v.graph = w.graph := by
  induction made generalizing w with
  | nil => exact Work.ensures_pure.mpr rfl
  | cons m made ih =>
      refine Work.ensures_bind.mpr (ensures_notePlacement.mono fun _ v hv => ?_)
      exact ih.mono fun _ u hu => hu.trans hv

/-- Planning is safe where plans that do not fit are tolerated, and places outputs of the graph
only. -/
theorem ensures_allocate {w : Workspace} (hg : w.graph.Linked)
    (hlarge : ∀ plan, (layout w.graph).2 = .ok plan → ¬plan.Fits w.graph → Large w.graph) :
    Work.Ensures Large allocate w fun plan v =>
      v.graph = w.graph ∧ plan.Within w.graph ∧ plan.Fits w.graph := by
  simp only [allocate, Work.ensures_bind, Work.ensures_graph]
  refine ensures_notePlacements.mono fun _ v hv => ?_
  simp only [Work.ensures_attempt, Work.ensures_count, Work.ensures_note, Work.ensures_pure]
  refine ⟨safe_layout hg, fun plan hplan => ?_⟩
  have hwithin := within_of_layout hg.toSequenced hplan
  rcases footprint_cases hwithin with ⟨hfits, hb⟩ | ⟨hfits, hb⟩
  · rw [hb]
    exact ⟨safe_ok _, fun _ _ => ⟨hv, hwithin, hfits⟩⟩
  · rw [hb, safe_error, hv]
    exact ⟨hlarge plan hplan hfits, fun _ hbytes => by contradiction⟩

end NeuralC.Memory
