import NeuralC.Compile
import NeuralC.Proofs.Graph.Verify
import NeuralC.Proofs.Simplify.Remove
import NeuralC.Proofs.Size

/-!
# NeuralC.Proofs.Compile.Safe

Failures that are the compiler's own.  Using an element or a node that is not
there is one, and so are the reports that a stage makes when another has not
done its work: a layer that should be gone, a layer without record, an output
without range (`Diagnostic.isInternal`).  A size that is too large is another matter:
there are models for which it is, so an overflow is tolerated where something
said about the graph explains it (`Failure.Tolerable`).

A computation is `Safe` when it ends in no other failure.  A step `Ensures`
something when it is safe and, where it ends with a value, what it leaves is as
said.  A sequence ensures what its second part ensures on what the first part
leaves (`Work.ensures_bind`), so a stage is taken apart into its steps and its
steps are settled one by one.
-/

namespace NeuralC

/-! ## Internal failures -/

/-- Reports about a graph whose edges do not agree, a change that addresses no node or the
input, or a layer of another kind than was chosen. -/
def StructuralCause.isInternal : StructuralCause → Bool
  | notInGraph | unknownNeighbour _ | replacesUnknown _ | deletesInput | notPadding
  | notActivation | leftover _ | other _ => true
  | cause => cause.isDisagreement

/-- Reports about a record or an entry that was there before. -/
def QuantizationCause.isInternal : QuantizationCause → Bool
  | noRecord | entryVanished | predecessorWithoutRecord _ | other _ => true
  | _ => false

/-- Reports about an output without range. -/
def AllocationCause.isInternal : AllocationCause → Bool
  | noLiveRange | other _ => true
  | _ => false

/-- Reports about a file that should not have been asked for. -/
def RenderCause.isInternal : RenderCause → Bool
  | noLayerBound | noRecord _ | activationNotInline _ _ | noImplementation _ _ | emptyGraph
  | other _ => true
  | _ => false

/-- Whether a report is about the compiler and not about the model. -/
def Diagnostic.isInternal : Diagnostic → Bool
  | structural _ cause _ => cause.isInternal
  | quantization _ cause => cause.isInternal
  | allocation _ cause => cause.isInternal
  | render _ cause => cause.isInternal
  | _ => false

/-- Whether a failure is about the model: a report, or an overflow where `large` explains it. -/
def Failure.Tolerable (large : Prop) : Failure → Prop
  | reported d => d.isInternal = false
  | overflow => large
  | outOfRange | disorder => False

@[simp] theorem Diagnostic.isInternal_inStage (s : Stage) (d : Diagnostic) :
    (d.inStage s).isInternal = d.isInternal := by
  cases d <;> rfl

/-- Naming the stage of a failure does not change whether it is tolerable. -/
@[simp] theorem Failure.tolerable_inStage {large : Prop} (s : Stage) (f : Failure) :
    (f.inStage s).Tolerable large ↔ f.Tolerable large := by
  cases f with
  | reported d => simp [inStage, Tolerable]
  | outOfRange | overflow | disorder => rfl

/-- What verification finds in a linked graph is about the model. -/
theorem Graph.Linked.isInternal_of_verify {g : Graph} (hg : g.Linked) {d : Diagnostic}
    (hv : g.verify = .error d) : d.isInternal = false := by
  obtain ⟨_, cause, hmem, rfl⟩ := hg.exists_of_verify_eq_error hv
  have hall : ∀ cause ∈ contractCauses, cause.isInternal = false := by decide
  exact hall cause hmem

/-! ## Results -/

section Results

variable {α β : Type} {large : Prop}

/-- The result is a value or a failure that is tolerated. -/
def Safe (large : Prop) (x : Except Failure α) : Prop := ∀ f, x = .error f → f.Tolerable large

@[simp] theorem safe_ok (a : α) : Safe large (.ok a) := fun _ hf => by contradiction

@[simp] theorem safe_pure (a : α) : Safe large (pure a) := safe_ok a

@[simp] theorem safe_error {f : Failure} :
    Safe large (.error f : Except Failure α) ↔ f.Tolerable large := by
  simp [Safe]

@[simp] theorem safe_throw {f : Failure} :
    Safe large (throw f : Except Failure α) ↔ f.Tolerable large := safe_error

/-- A sequence is safe exactly if each part is, on what the part before it gives. -/
theorem safe_bind {x : Except Failure α} {f : α → Except Failure β} :
    Safe large (x >>= f) ↔ Safe large x ∧ ∀ a, x = .ok a → Safe large (f a) := by
  cases x with
  | ok a => simp [bind, Except.bind]
  | error e => simp [bind, Except.bind]

/-- A walk over a list is safe if each of its steps is. -/
theorem safe_mapM {f : α → Except Failure β} {as : List α} (hf : ∀ a ∈ as, Safe large (f a)) :
    Safe large (as.mapM f) := by
  induction as with
  | nil => exact safe_pure _
  | cons a as ih =>
      rw [List.mapM_cons, safe_bind]
      refine ⟨hf a List.mem_cons_self, fun b _ => safe_bind.mpr ⟨?_, fun bs _ => safe_pure _⟩⟩
      exact ih fun a' ha' => hf a' (List.mem_cons_of_mem a ha')

/-- A node that is in the graph is found. -/
theorem safe_node {g : Graph} {h : Handle} (hh : g.contains h = true) :
    Safe large (g.node h) := by
  obtain ⟨n, hn⟩ := Graph.contains_iff.mp hh
  rw [Graph.node_eq_ok.mpr hn]
  exact safe_ok n

theorem safe_nodes {g : Graph} (hg : g.Linked) : Safe large g.nodes :=
  safe_mapM fun _ hh => safe_node (hg.mem_order.mp hh)

/-- Counting the elements of an array is safe where its dimensions can be multiplied. -/
theorem safe_count {shape : Shape} (hshape : ¬large → shape.Counted) :
    Safe large shape.count := by
  by_cases hl : large
  · rw [Safe]
    rintro f hf
    rw [(Shape.count_eq_error.mp hf).2]
    exact hl
  · rw [Shape.count_of_counted (hshape hl)]
    exact safe_ok _

/-- Counting is safe for a shape within the limit. -/
theorem safe_countSample {shape : Shape} (hshape : ¬large → shape.Bounded) :
    Safe large shape.countSample :=
  safe_count fun hl => (hshape hl).counted_drop 1

end Results

/-! ## Steps -/

namespace Work

variable {α β : Type} {Large : Graph → Prop} {w : Workspace} {x : Work α}
  {P Q : α → Workspace → Prop}

/-- The step, on a workspace, ends in no failure but those that are tolerated for the graph then at
work; if it ends with a value, value and workspace are as `P` says. -/
def Ensures (Large : Graph → Prop) (x : Work α) (w : Workspace) (P : α → Workspace → Prop) :
    Prop :=
  match x w with
  | .ok a v => P a v
  | .error f v => f.Tolerable (Large v.graph)

/-- To ensure a condition is to be safe and to meet the condition on success. -/
theorem ensures_iff : Ensures Large x w P ↔ Ensures Large x w (fun _ _ => True) ∧
    ∀ a v, x w = .ok a v → P a v := by
  unfold Ensures
  cases x w with
  | ok a v => simp
  | error f v => simp

/-- A condition may be weakened. -/
theorem Ensures.mono (hx : Ensures Large x w P) (hPQ : ∀ a v, P a v → Q a v) :
    Ensures Large x w Q := by
  unfold Ensures at *
  cases hxw : x w with
  | ok a v =>
      rw [hxw] at hx
      exact hPQ a v hx
  | error f v =>
      rw [hxw] at hx
      exact hx

/-- What is known of the value and the workspace once a step has ended. -/
theorem Ensures.of_ok (hx : Ensures Large x w Q) (hP : ∀ a v, x w = .ok a v → P a v) :
    Ensures Large x w P :=
  ensures_iff.mpr ⟨hx.mono fun _ _ _ => trivial, hP⟩

theorem Ensures.and_of_ok (hx : Ensures Large x w P) (hQ : ∀ a v, x w = .ok a v → Q a v) :
    Ensures Large x w fun a v => P a v ∧ Q a v :=
  hx.of_ok fun a v hv => ⟨(ensures_iff.mp hx).2 a v hv, hQ a v hv⟩

/-- A sequence ensures what its second part ensures on all that its first part leaves. -/
theorem ensures_bind {f : α → Work β} {P : β → Workspace → Prop} :
    Ensures Large (x >>= f) w P ↔ Ensures Large x w fun a v => Ensures Large (f a) v P := by
  unfold Ensures
  rw [bind_apply]
  cases x w <;> rfl

@[simp] theorem ensures_pure {a : α} : Ensures Large (pure a) w P ↔ P a w := Iff.rfl

@[simp] theorem ensures_graph {P : Graph → Workspace → Prop} :
    Ensures Large graph w P ↔ P w.graph w := Iff.rfl

@[simp] theorem ensures_get {P : Workspace → Workspace → Prop} :
    Ensures Large get w P ↔ P w w := Iff.rfl

section Unit

variable {P : Unit → Workspace → Prop}

@[simp] theorem ensures_setGraph {g : Graph} :
    Ensures Large (setGraph g) w P ↔ P () { w with graph := g } := Iff.rfl

@[simp] theorem ensures_note {level : Level} {text : String} :
    Ensures Large (note level text) w P ↔
      P () { w with session := w.session.note level text } := Iff.rfl

@[simp] theorem ensures_count {c : Statistics → Statistics} :
    Ensures Large (count c) w P ↔
      P () { w with session := { w.session with stats := c w.session.stats } } := Iff.rfl

@[simp] theorem ensures_recordType {t : NumberType} :
    Ensures Large (recordType t) w P ↔ P () { w with session := w.session.recordType t } :=
  Iff.rfl

end Unit

/-- A report ends the run: only that it is not internal matters. -/
@[simp] theorem ensures_report {d : Diagnostic} :
    Ensures Large (report d) w P ↔ d.isInternal = false := Iff.rfl

/-- What is attempted is safe, and its result meets the condition. -/
@[simp] theorem ensures_attempt {y : Except Failure α} :
    Ensures Large (attempt y) w P ↔
      NeuralC.Safe (Large w.graph) y ∧ ∀ a, y = .ok a → P a w := by
  cases y with
  | ok a => simp
  | error f => simp [Ensures]

@[simp] theorem ensures_check {y : Except Diagnostic α} :
    Ensures Large (check y) w P ↔
      (∀ d, y = .error d → d.isInternal = false) ∧ ∀ a, y = .ok a → P a w := by
  cases y with
  | ok a => simp [check]
  | error d => simp [check]

/-- Naming the stage changes nothing. -/
@[simp] theorem ensures_inStage {s : Stage} :
    Ensures Large (inStage s x) w P ↔ Ensures Large x w P := by
  unfold Ensures inStage
  cases x w with
  | ok a v => rfl
  | error f v => simp

/-- Looking up a node that is there. -/
theorem ensures_node {h : Handle} {n : Node} {P : Node → Workspace → Prop}
    (hn : w.graph.get? h = some n) : Ensures Large (node h) w P ↔ P n w := by
  rw [Ensures, node_eq_ok.mpr ⟨hn, rfl⟩]

end Work

end NeuralC
