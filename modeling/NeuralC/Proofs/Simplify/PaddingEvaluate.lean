import Mathlib.Algebra.Field.Rat
import Mathlib.Algebra.Order.Ring.Rat
import NeuralC.Proofs.Graph.Histories
import NeuralC.Proofs.Simplify.Padding

/-!
# NeuralC.Proofs.Simplify.PaddingEvaluate

Folding padding layers does not always keep what a graph computes: a convolution
that reads padding loses the padding it had itself, and a padding layer in last
place is not made up for by anything (`fusePadding_turns_output`).

`evaluate_fusePadding` says when it does: every reader keeps its products, and
the last layer is none that pads.  A reader without padding in front of its
samples keeps its products (`keepsProducts_of_unpadded`).
-/

namespace NeuralC.Simplify

open NeuralC.Graph NeuralC.Evaluate

/-! ## Readers -/

/-- Where the inputs of a layer come from when padding in front of it is left out. -/
def origin (g : Graph) (n : Node) : Nat → Option Nat :=
  match n.preds.head?.bind g.get? with
  | none => some
  | some m =>
    match m.layer.kind, m.layer.inputShape with
    | .zeroPadding1D padding, [_, samples, channels] =>
      unpadded (padding.head?.getD (0, 0)).1 samples channels
    | _, _ => some

/-- A reader of padding that takes it over multiplies the same weights with the same
inputs as before, padding zeros left out. -/
def KeepsProducts (g : Graph) (n : Node) : Prop :=
  addends (absorbed g (g.handlesWhere isPadding) n) =
    (addends n.layer).map (List.map (List.filterMap (retrace (origin g n))))

instance (g : Graph) (n : Node) : Decidable (KeepsProducts g n) :=
  inferInstanceAs (Decidable (_ = _))

/-- A reader of padding that takes it over has the sums it had before, for all weights
and inputs. -/
def SameSums (K : Type) [Field K] (g : Graph) (n : Node) : Prop :=
  ∀ kernel input : Nat → K,
    (addends (absorbed g (g.handlesWhere isPadding) n)).map (List.map (weighted kernel input)) =
      (addends n.layer).map (List.map (weighted kernel fun i => (origin g n i).elim 0 input))

def ReadsPadding (g : Graph) (n : Node) : Prop := ∃ t ∈ n.preds, t ∈ g.handlesWhere isPadding

section

variable {g g' : Graph} {n : Node} (hg : g.Linked)
  (hf : Folded g g' (g.handlesWhere isPadding))

/-- A node that reads no padding layer keeps its layer and its operands. -/
theorem result_foldedNode_of_not {α : Type} {a : Arithmetic α} {sample : List α} {v : Outputs α}
    (hn : ¬ ReadsPadding g n) :
    result a sample v (foldedNode g (g.handlesWhere isPadding) n) = result a sample v n := by
  have hts : ∀ t ∈ g.handlesWhere isPadding, t ∉ n.preds := fun t ht hp => hn ⟨t, hp, ht⟩
  rw [result, foldedNode, absorbed_of_forall_not_mem hts,
    around_of_forall_not_mem fun x hx ht => hts x ht hx, result]

variable {K : Type} [Field K] [LinearOrder K] {exp : K → K} {value : Element → K} {lowest : K}
  {sample : List K} {v : Outputs K}

/-- A padding layer that has a value is one over samples and channels. -/
theorem padding_of_result {t : Handle} {m : Node} {ys : List K} (ht : t ∈ g.handlesWhere isPadding)
    (hm : g.get? t = some m) (hr : result (.exact exp value lowest) sample v m = .ok ys) :
    ∃ padding b samples channels, m.layer.kind = .zeroPadding1D padding ∧
      m.layer.inputShape = [b, samples, channels] ∧
      zeroPadding (.exact exp value lowest) m.layer padding ((m.preds.map v).head?.getD []) =
        .ok ys := by
  have hpad := kind_of_mem_handlesWhere ht hm
  cases hk : m.layer.kind with
  | zeroPadding1D padding =>
      simp only [result, layer, hk] at hr
      obtain ⟨b, samples, channels, hshape, _⟩ := zeroPadding_cases hr
      exact ⟨padding, b, samples, channels, rfl, hshape, hr⟩
  | zeroPadding2D padding =>
      simp only [result, layer, hk] at hr
      contradiction
  | _ =>
      rw [hk] at hpad
      contradiction

theorem isInput_of_isPadding {l : Layer} (hl : isPadding l.kind = true) : l.isInput = false := by
  rw [Layer.isInput]
  split
  · next hk =>
      rw [hk] at hl
      contradiction
  · rfl

/-- A padding layer of an accepted graph has an operand. -/
theorem preds_ne_nil_of_isPadding (hv : g.verify = .ok ()) {t : Handle} {m : Node}
    (ht : t ∈ g.handlesWhere isPadding) (hm : g.get? t = some m) : m.preds ≠ [] := by
  have hinput := isInput_of_isPadding (kind_of_mem_handlesWhere ht hm)
  exact preds_ne_nil_of_verify hv (mem_handlesWhere.mp ht).1 hm hinput

/-- Behind padding a reader finds what the padding reads, moved to the left. -/
theorem origin_of_padding {f : Handle} {fs : List Handle} {m : Node}
    {padding : List (Nat × Nat)} {b samples channels : Nat} (hn : n.preds = f :: fs)
    (hm : g.get? f = some m) (hk : m.layer.kind = .zeroPadding1D padding)
    (hs : m.layer.inputShape = [b, samples, channels]) :
    origin g n = unpadded (padding.head?.getD (0, 0)).1 samples channels := by
  simp [origin, hn, hm, hk, hs]

/-- A reader without padding in front of its samples, declared for what the padding layer
writes, keeps its products. -/
theorem keepsProducts_of_unpadded {t : Handle} {m : Node} {c : Convolution}
    {padding : List (Nat × Nat)} {b b₁ b₂ left samples right channels places filters : Nat}
    (ht : t ∈ g.handlesWhere isPadding) (hm : g.get? t = some m)
    (hkind : m.layer.kind = .zeroPadding1D padding)
    (hpad : padding.head?.getD (0, 0) = (left, right))
    (hshape : m.layer.inputShape = [b, samples, channels]) (hn : n.preds = [t])
    (hc : n.layer.kind = .conv1D c)
    (hi : n.layer.inputShape = [b₁, left + samples + right, channels])
    (ho : n.layer.outputShape = [b₂, places, filters])
    (hown : (c.padding.head?.getD (0, 0)).1 = 0) (hgroups : max c.groups 1 ∣ filters) :
    KeepsProducts g n := by
  have hof : paddingOf g t = some (padding, m.layer.inputShapes) := by
    rw [paddingOf, hm, Option.bind_some, hkind]
    rfl
  have hlayer : absorbed g (g.handlesWhere isPadding) n =
      padded padding m.layer.inputShapes n.layer := by
    rcases absorbed_cases g (g.handlesWhere isPadding) n with ⟨_, hnone⟩ |
      ⟨t', padding', shapes', _, hread, hof', hlayer⟩
    · rw [hnone t ht (by simp [hn])] at hof
      contradiction
    · rw [hn, List.mem_singleton] at hread
      rw [hread, hof] at hof'
      injection hof' with hof'
      injection hof' with hpadding hshapes
      rw [hlayer, hpadding, hshapes]
  have horigin : origin g n = unpadded left samples channels := by
    rw [origin_of_padding hn hm hkind hshape, hpad]
  rw [KeepsProducts, hlayer, horigin]
  exact addends_padded hc hi ho hown hgroups hshape hpad

/-- Without padding in front a reader finds what it reads. -/
theorem origin_of_not_isPadding {f : Handle} {fs : List Handle} {m : Node}
    (hn : n.preds = f :: fs) (hm : g.get? f = some m) (hk : isPadding m.layer.kind = false) :
    origin g n = some := by
  simp only [origin, hn, List.head?_cons, Option.bind_some, hm]
  split
  · next hpad _ =>
      rw [hpad] at hk
      contradiction
  · rfl

include hg

/-- What a reader finds in its first operand comes from the operand that it reads when
padding layers are folded, or is a padding zero. -/
theorem operand_origin (hv : g.verify = .ok ())
    (hsol : Solves (.exact exp value lowest) g sample v g.order) {k : Handle}
    (hk : g.get? k = some n) (hne : n.preds ≠ []) (i : Nat) (y : K)
    (hy : ((n.preds.map v).head?.getD [])[i]? = some y) :
    let preds := around g (g.handlesWhere isPadding) Node.preds n.preds
    (∃ j, origin g n i = some j ∧ ((preds.map v).head?.getD [])[j]? = some y) ∨
      (origin g n i = none ∧ y = 0) := by
  intro preds
  obtain ⟨f, fs, hn⟩ := List.exists_cons_of_ne_nil hne
  have hfo : f ∈ g.order := (hg.forward hk (hn ▸ List.mem_cons_self)).left_mem
  obtain ⟨m, hm⟩ := hg.exists_get? hfo
  have hfirst : (n.preds.map v).head?.getD [] = v f := by rw [hn]; rfl
  rw [hfirst] at hy
  by_cases hft : f ∈ g.handlesWhere isPadding
  · obtain ⟨padding, b, samples, channels, hkind, hshape, hzero⟩ :=
      padding_of_result hft hm (hsol.result_eq hfo hm)
    obtain ⟨q, qs, hq⟩ := List.exists_cons_of_ne_nil (preds_ne_nil_of_isPadding hv hft hm)
    have hhead : (preds.map v).head?.getD [] = (m.preds.map v).head?.getD [] := by
      simp [preds, around, hn, hft, hm, hq]
    rw [hhead, origin_of_padding hn hm hkind hshape]
    exact getElem?_of_zeroPadding hshape hzero i y hy
  · have hpad : isPadding m.layer.kind = false := by
      rw [← Bool.not_eq_true]
      exact fun hp => hft (mem_handlesWhere.mpr ⟨hfo, m, hm, hp⟩)
    have hhead : (preds.map v).head?.getD [] = v f := by simp [preds, around, hn, hft]
    rw [hhead, origin_of_not_isPadding hn hm hpad]
    exact .inl ⟨i, rfl, hy⟩

include hf

/-- A reader that keeps its products keeps its value. -/
theorem result_foldedNode_of_reads (hv : g.verify = .ok ())
    (hsol : Solves (.exact exp value lowest) g sample v g.order) {k : Handle}
    (hk : g.get? k = some n) (hreads : ReadsPadding g n) (hkeeps : KeepsProducts g n) :
    result (.exact exp value lowest) sample v (foldedNode g (g.handlesWhere isPadding) n) =
      .ok (v k) := by
  have hr := hsol.result_eq (hg.mem_of_get? hk) hk
  obtain ⟨t, htp, ht⟩ := hreads
  obtain ⟨hto, m, hm, hpad⟩ := mem_handlesWhere.mp ht
  -- The reader is a convolution, and one over samples, for it has a value.
  have hconv := hf.readers ht hm ((hg.mem_succs_iff hm hk).mpr htp) hk
  obtain ⟨c, hc⟩ : ∃ c, n.layer.kind = .conv1D c := by
    cases hkind : n.layer.kind with
    | conv1D c => exact ⟨c, rfl⟩
    | conv2D c =>
        simp only [result, layer, hkind] at hr
        contradiction
    | _ =>
        rw [hkind] at hconv
        contradiction
  have hsome : paddingOf g t ≠ none := by
    rw [isPadding, Option.isSome_iff_ne_none] at hpad
    simpa [paddingOf, hm] using hpad
  rcases absorbed_cases g (g.handlesWhere isPadding) n with ⟨_, hnone⟩ |
    ⟨t', padding, shapes, ht', htp', hof, hlayer⟩
  · exact absurd (hnone t ht htp) hsome
  · obtain ⟨hto', m', hm', _⟩ := mem_handlesWhere.mp ht'
    obtain ⟨padding', b, samples, channels, hkind', hshape, _⟩ :=
      padding_of_result ht' hm' (hsol.result_eq hto' hm')
    rw [paddingOf, hm', Option.bind_some, hkind'] at hof
    injection hof with hof
    injection hof with hpadding hshapes
    subst hpadding hshapes
    rw [KeepsProducts, hlayer] at hkeeps
    rw [result, foldedNode, hlayer]
    exact layer_padded hc hshape
      (operand_origin hg hv hsol hk (List.ne_nil_of_mem htp)) hkeeps hr

end

/-! ## Graphs -/

/-- Outputs of an accepted graph are outputs of the graph with padding folded, where every
reader of padding keeps its products and the last layer does not pad. -/
theorem evaluate_eq_ok_of_folded {K : Type} [Field K] [LinearOrder K] {exp : K → K}
    {value : Element → K} {lowest : K} {g g' : Graph} {sample ys : List K}
    (hv : g.verify = .ok ()) (hg : g.Linked) (hg' : g'.Linked)
    (hf : Folded g g' (g.handlesWhere isPadding))
    (hlast : ∀ t ∈ g.handlesWhere isPadding, g.output? ≠ some t)
    (hkeeps : ∀ h n, g.get? h = some n → ReadsPadding g n → KeepsProducts g n)
    (he : evaluate (.exact exp value lowest) g sample = .ok ys) :
    evaluate (.exact exp value lowest) g' sample = .ok ys := by
  obtain ⟨v, o, hsol, ho, hys⟩ := (evaluate_eq_ok hg.toSequenced).mp he
  refine (evaluate_eq_ok hg'.toSequenced).mpr ⟨v, o, fun k hk => ?_, ?_, hys⟩
  · rw [hf.order_eq, List.mem_filter] at hk
    obtain ⟨n, hn⟩ := hg.exists_get? hk.1
    refine ⟨foldedNode g (g.handlesWhere isPadding) n, ?_, ?_⟩
    · rw [hf.get?_eq, if_neg (by simpa using hk.2), hn, Option.map_some]
    · by_cases hreads : ReadsPadding g n
      · exact result_foldedNode_of_reads hg hf hv hsol hn hreads (hkeeps k n hn hreads)
      · rw [result_foldedNode_of_not hreads]
        exact hsol.result_eq hk.1 hn
  · obtain ⟨xs, hxs⟩ := List.getLast?_eq_some_iff.mp ho
    have hoff : o ∉ g.handlesWhere isPadding := fun ht => hlast o ht ho
    rw [output?, hf.order_eq, hxs, List.filter_append, List.filter_singleton]
    simp [hoff]

/-- Folding padding layers keeps what an accepted graph computes, where every reader of
padding keeps its products and the last layer does not pad.  Less will not do for a
reader: it keeps its products exactly when it has the same sums for all weights and
inputs. -/
theorem evaluate_fusePadding {K : Type} [Field K] [LinearOrder K] (exp : K → K)
    (value : Element → K) (lowest : K) {w w' : Workspace} {count : Nat}
    (hv : w.graph.verify = .ok ()) (hl : w.graph.Listed) (hp : fusePadding w = .ok count w')
    (hlast : ∀ t ∈ w.graph.handlesWhere isPadding, w.graph.output? ≠ some t) :
    ((∀ h n, w.graph.get? h = some n → ReadsPadding w.graph n → KeepsProducts w.graph n) →
      ∀ sample ys, evaluate (.exact exp value lowest) w.graph sample = .ok ys →
        evaluate (.exact exp value lowest) w'.graph sample = .ok ys) ∧
      ∀ n, KeepsProducts w.graph n ↔ SameSums K w.graph n := by
  have hg := linked_of_verify hv hl
  obtain ⟨hf, hg'⟩ := folded_of_fusePadding hg hp
  refine ⟨fun hkeeps sample ys he => ?_, fun n => addends_retraced_iff⟩
  exact evaluate_eq_ok_of_folded hv hg hg' hf hlast hkeeps he

/-- Calls that build a padding layer with two readers, whose outputs are added. -/
def paddedOnce : List Edit := [
  .addInput (.source "x" [1, 3, 2]),
  .insert ⟨"pad", [[1, 3, 2]], [[1, 6, 2]], .float32, .zeroPadding1D [(1, 2)]⟩ [0] [],
  .insert ⟨"a", [[1, 6, 2]], [[1, 2, 4]], .float32, .conv1D {
    filters := 4, kernelSize := [3], strides := [2], groups := 2, padding := [(0, 3)],
    activation := .relu, kernel := ⟨[4, 3, 1], .i8 [1, 2, 3, -1, 0, 2, 5, 1, 0, -3, 4, 1]⟩,
    bias := some ⟨[4], .i8 [1, 0, -2, 3]⟩ }⟩ [1] [],
  .insert ⟨"b", [[1, 6, 2]], [[1, 2, 4]], .float32, .conv1D {
    filters := 4, kernelSize := [2], strides := [4], groups := 1, padding := [],
    activation := .linear,
    kernel := ⟨[4, 2, 2], .i8 [1, 2, 3, -1, 0, 2, 5, 1, 0, -3, 4, 1, 7, 0, -1, 1]⟩,
    bias := none }⟩ [1] [],
  .insert ⟨"c", [[1, 2, 4], [1, 2, 4]], [[1, 2, 4]], .float32, .add .relu6⟩ [2, 3] []]

/-- Two convolutions that read the same padding compute without it what they did before. -/
theorem evaluate_paddedOnce :
    let w := history {} paddedOnce
    let arithmetic := Arithmetic.exact (K := ℚ) id Element.whole 0
    w.graph.verify = .ok () ∧ w.graph.Listed ∧
      evaluate arithmetic w.graph [1, 2, -3, 4, 5, 0] = .ok [1, 6, 6, 6, 6, 3, 6, 0] ∧
      ∃ w', fusePadding w = .ok 1 w' ∧ w'.graph.order = [0, 2, 3, 4] ∧
        evaluate arithmetic w'.graph [1, 2, -3, 4, 5, 0] = .ok [1, 6, 6, 6, 6, 3, 6, 0] := by
  intro w arithmetic
  have hv : w.graph.verify = .ok () := by decide
  have hl : w.graph.Listed :=
    (Workspace.wellFormed_afterAll wellFormed_empty paddedOnce).toLinked.listed
  have he : evaluate arithmetic w.graph [1, 2, -3, 4, 5, 0] = .ok [1, 6, 6, 6, 6, 3, 6, 0] := by
    decide +kernel
  have hkeeps : ∀ h ∈ w.graph.order, ∀ n ∈ w.graph.get? h, KeepsProducts w.graph n := by decide
  refine ⟨hv, hl, he, _, rfl, by decide, ?_⟩
  exact (evaluate_fusePadding id Element.whole 0 hv hl rfl (by decide)).1
    (fun h n hn _ => hkeeps h (hl h (contains_iff.mpr ⟨n, hn⟩)) n hn) _ _ he

/-- Calls that build a convolution with padding of its own behind a padding layer. -/
def paddedTwice : List Edit := [
  .addInput (.source "x" [1, 2, 1]),
  .insert ⟨"pad", [[1, 2, 1]], [[1, 4, 1]], .float32, .zeroPadding1D [(1, 1)]⟩ [0] [],
  .insert ⟨"conv", [[1, 4, 1]], [[1, 4, 1]], .float32, .conv1D {
    filters := 1, kernelSize := [3], strides := [1], groups := 1, padding := [(1, 1)],
    activation := .linear, kernel := ⟨[1, 3, 1], .f32 [1, 1, 1]⟩, bias := none }⟩ [1] []]

/-- Calls that build a padding layer in last place. -/
def paddedLast : List Edit := [
  .addInput (.source "x" [1, 2, 1]),
  .insert ⟨"pad", [[1, 2, 1]], [[1, 4, 1]], .float32, .zeroPadding1D [(1, 1)]⟩ [0] []]

/-- Folding padding in an accepted graph, with ones for weights, turns one output into
another. -/
def Turns (edits : List Edit) (sample before after : List ℚ) : Prop :=
  let w := history {} edits
  let arithmetic := Arithmetic.exact (K := ℚ) id (fun _ => 1) 0
  w.graph.verify = .ok () ∧ w.graph.Listed ∧ evaluate arithmetic w.graph sample = .ok before ∧
    ∃ w', fusePadding w = .ok 1 w' ∧ evaluate arithmetic w'.graph sample = .ok after

/-- A convolution loses its own padding, and padding in last place is lost. -/
theorem fusePadding_turns_output :
    Turns paddedTwice [1, 2] [1, 3, 3, 2] [3, 3, 2, 0] ∧
      Turns paddedLast [1, 2] [0, 1, 2, 0] [1, 2] := by
  constructor
  · exact ⟨by decide, (Workspace.wellFormed_afterAll wellFormed_empty paddedTwice).toLinked.listed,
      by decide +kernel, _, rfl, by decide +kernel⟩
  · exact ⟨by decide, (Workspace.wellFormed_afterAll wellFormed_empty paddedLast).toLinked.listed,
      by decide +kernel, _, rfl, by decide +kernel⟩

end NeuralC.Simplify
