import NeuralC.Proofs.Model.Build
import NeuralC.Proofs.Simplify.FixedPoint
import NeuralC.Proofs.Simplify.Sources

/-!
# NeuralC.Proofs.Simplify.Shapes

Shapes across the edges of a graph.  In a graph that `Agrees`, every layer reads
the shapes that its operands write; the graph of a description does.  The passes
lead edges around layers that they take out.  What a layer then reads are the
layers that its operands lead back to (`Graph.sources`), but its input shapes stay
as they were, unless it takes over padding: then they are those of the last padding
layer that it read (`takenShapes`).

So a run keeps the agreement exactly when, for each layer that stays, the two come
out the same (`agrees_optimize_iff`).  They do where each layer that is taken out
hands on the shape it reads.
-/

namespace NeuralC

namespace Graph

def shapeOf (g : Graph) (h : Handle) : Shape := ((g.get? h).map (·.layer.outputShape)).getD []

/-- Every layer behind the input reads the shapes that its operands write. -/
def Agrees (g : Graph) : Prop :=
  ∀ h n, g.get? h = some n → n.layer.isInput = false → n.layer.inputShapes = n.preds.map g.shapeOf

end Graph

namespace Simplify

open NeuralC.Graph

/-! ## Steps that change no shape -/

/-- Whether a layer writes what it reads, value by value. -/
def isPointwise : LayerKind → Bool
  | .identity | .dropout _ | .activation _ => true
  | _ => false

theorem steady_isPointwise : Steady isPointwise where
  setPadding_eq := by intro padding kind; cases kind <;> rfl
  setFusableActivation_eq := by intro a kind; cases kind <;> rfl

/-- A step that takes out an identity, a dropout or an activation and changes no shape. -/
structure Detour (g g' : Graph) (h : Handle) (n : Node) : Prop extends Bypassed g g' h n where
  pointwise : isPointwise n.layer.kind = true
  shapes_eq : ∀ {k m m'}, g.get? k = some m → g'.get? k = some m' →
    m'.layer.inputShapes = m.layer.inputShapes ∧ m'.layer.outputShapes = m.layer.outputShapes

/-- Such steps, one after another. -/
inductive Detours : Graph → Graph → List Handle → Prop where
  | nil (g : Graph) : Detours g g []
  | cons {g g₁ g' : Graph} {h : Handle} {n : Node} {hs : List Handle} :
    Detour g g₁ h n → Detours g₁ g' hs → Detours g g' (h :: hs)

/-- Detours shrink the graph. -/
theorem Detours.shrinks {g g' : Graph} {hs : List Handle} (hd : Detours g g' hs) :
    Shrinks g g' hs := by
  induction hd with
  | nil g => exact .nil g
  | cons hb _ ih => exact .cons hb.toBypassed ih

/-- Detours follow one another. -/
theorem Detours.trans {g g₁ g' : Graph} {hs hs₁ : List Handle} (hd : Detours g g₁ hs)
    (hd₁ : Detours g₁ g' hs₁) : Detours g g' (hs ++ hs₁) := by
  induction hd with
  | nil g => exact hd₁
  | cons hb _ ih => exact .cons hb (ih hd₁)

/-- Neither the shapes that a layer reads nor those that it writes change. -/
theorem Detours.shapes_eq {g g' : Graph} {hs : List Handle} (hd : Detours g g' hs)
    (hg : g.Linked) {k : Handle} {m' : Node} (hm' : g'.get? k = some m') :
    ∃ m, g.get? k = some m ∧ m'.layer.isInput = m.layer.isInput ∧
      m'.layer.inputShapes = m.layer.inputShapes ∧
      m'.layer.outputShapes = m.layer.outputShapes := by
  induction hd with
  | nil g => exact ⟨m', hm', rfl, rfl, rfl⟩
  | cons hb _ ih =>
      obtain ⟨m₁, hm₁, hinput₁, hins₁, houts₁⟩ := ih hb.linked hm'
      obtain ⟨-, m, hm, hl, -⟩ := hb.origin hg hm₁
      obtain ⟨hins, houts⟩ := hb.shapes_eq hm hm₁
      exact ⟨m, hm, hinput₁.trans (isInput_reworked hl), hins₁.trans hins, houts₁.trans houts⟩

/-- Deleting a layer that works pointwise is a detour. -/
theorem detour_of_delete {g g' : Graph} {h : Handle} {n : Node} (hg : g.Linked)
    (hd : g.delete h = .ok g') (hn : g.get? h = some n)
    (hk : isPointwise n.layer.kind = true) : Detour g g' h n := by
  obtain ⟨n', hb⟩ := bypassed_of_delete hg hd
  cases hn.symm.trans hb.get?_gone
  refine ⟨hb, hk, fun {k m m'} hm hm' => ?_⟩
  rw [hg.get?_delete hd hn, hm] at hm'
  split at hm'
  · contradiction
  · cases hm'
    exact ⟨rfl, rfl⟩

/-- Folding an activation is a detour. -/
theorem Merged.detour {g g' : Graph} {h p : Handle} {n m : Node} {outer inner f : Activation}
    (hm : Merged g g' h p n m outer inner f) (hg : g.Linked) : Detour g g' h n := by
  refine ⟨hm.bypassed hg, by rw [hm.kind_eq]; rfl, fun {k r r'} hr hr' => ?_⟩
  obtain ⟨hk, -⟩ := (hm.bypassed hg).origin hg hr'
  by_cases hkp : k = p
  · subst hkp
    cases hm.get?_producer.symm.trans hr
    cases (hm.get?_merged hg).symm.trans hr'
    exact ⟨rfl, rfl⟩
  · cases (hm.get?_kept hg hk hkp hr).symm.trans hr'
    exact ⟨rfl, rfl⟩

theorem detours_of_removeAll {hs : List Handle} {w w' : Workspace} (hg : w.graph.Linked)
    (hr : removeAll hs w = .ok () w')
    (hk : ∀ h ∈ hs, ∀ n, w.graph.get? h = some n → isPointwise n.layer.kind = true) :
    Detours w.graph w'.graph hs := by
  induction hs generalizing w with
  | nil =>
      injection hr with _ hr
      rw [hr]
      exact .nil _
  | cons h hs ih =>
      obtain ⟨v, hd, hr⟩ := removeAll_cons hr
      obtain ⟨n, hn, -⟩ := delete_cases hd
      have hb := detour_of_delete hg hd hn (hk h List.mem_cons_self n hn)
      refine .cons hb (ih hb.linked hr fun k hks m' hm' => ?_)
      obtain ⟨-, m, hm, hl, -⟩ := hb.origin hg hm'
      rw [steady_isPointwise.reworked hl]
      exact hk k (List.mem_cons_of_mem h hks) m hm

/-- Removing layers that work pointwise is a sequence of detours. -/
theorem detours_of_removeWhere {p : LayerKind → Bool} {count : Nat} {w w' : Workspace}
    (hp : ∀ kind, p kind = true → isPointwise kind = true) (hg : w.graph.Linked)
    (hr : removeWhere p w = .ok count w') :
    Detours w.graph w'.graph (w.graph.handlesWhere p) :=
  detours_of_removeAll hg (sweep_eq_ok hr) fun _ hh _ hn => hp _ (kind_of_mem_handlesWhere hh hn)

theorem detours_of_fuseActivationAll {ts : List Handle} {count : Nat} {w w' : Workspace}
    (hg : w.graph.Linked) (hf : fuseActivationAll ts w = .ok count w') :
    ∃ hs, Detours w.graph w'.graph hs := by
  refine (fuseActivationAll_induction
    (P := fun _ g => g.Linked ∧ ∃ hs, Detours w.graph g hs) (fun h _ => h) (fun h hm => ?_)
    ⟨hg, [], .nil _⟩ hf).2
  obtain ⟨hlinked, hs, hd⟩ := h
  exact ⟨hm.linked hlinked, _, hd.trans (.cons (hm.detour hlinked) (.nil _))⟩

/-- So is the folding of activations. -/
theorem detours_of_fuseActivation {count : Nat} {w w' : Workspace} (hg : w.graph.Linked)
    (hf : fuseActivation w = .ok count w') : ∃ hs, Detours w.graph w'.graph hs := by
  replace hf := fuseActivationAll_of_fuseActivation hf
  exact detours_of_fuseActivationAll hg hf

/-! ## Layers that hand on their shape -/

/-- A layer that is taken out and that others read has one operand and writes its shape. -/
def HandsOn (g : Graph) (kept : List Handle) : Prop :=
  ∀ h n, g.get? h = some n → h ∉ kept → isPointwise n.layer.kind = true → n.succs ≠ [] →
    ∃ p, n.preds = [p] ∧ g.shapeOf p = g.shapeOf h

def OneOperand (g : Graph) : Prop :=
  ∀ h n, g.get? h = some n → n.layer.kind.padding?.isSome = true → ∃ p, n.preds = [p]

theorem steady_isConvolution : Steady fun kind => kind.padding?.isSome where
  setPadding_eq := by intro padding kind; cases kind <;> rfl
  setFusableActivation_eq := by intro a kind; cases kind <;> rfl

namespace Detour

variable {g g' : Graph} {h : Handle} {n : Node} {kept : List Handle} (hb : Detour g g' h n)
  (hg : g.Linked)

include hb

/-- A detour changes no output shape. -/
theorem shapeOf_eq {k : Handle} {m : Node} (hk : k ≠ h) (hm : g.get? k = some m) :
    g'.shapeOf k = g.shapeOf k := by
  obtain ⟨m', hm', -⟩ := hb.kept hk hm
  rw [shapeOf, shapeOf, hm, hm', Option.map_some, Option.map_some, Layer.outputShape,
    Layer.outputShape, (hb.shapes_eq hm hm').2]

variable (hh : h ∉ kept) (ho : HandsOn g kept)

include hg hh ho

/-- Each operand of a layer that stays gives way to one of the same shape. -/
theorem preds_eq {k : Handle} {m m' : Node} (hk : k ≠ h) (hm : g.get? k = some m)
    (hm' : g'.get? k = some m') :
    ∃ next : Handle → Handle, m'.preds = m.preds.map next ∧
      ∀ p ∈ m.preds, g'.shapeOf (next p) = g.shapeOf p := by
  obtain ⟨r, hr, -, hpreds, -⟩ := hb.kept hk hm
  cases hm'.symm.trans hr
  by_cases hread : h ∈ m.preds
  · have hsuccs : n.succs ≠ [] :=
      List.ne_nil_of_mem ((hg.mem_succs_iff hb.get?_gone hm).mpr hread)
    obtain ⟨q, hq, hshape⟩ := ho h n hb.get?_gone hh hb.pointwise hsuccs
    refine ⟨fun p => if p = h then q else p, by rw [hpreds, hq, substitute_singleton], ?_⟩
    intro p hp
    dsimp only
    split
    · next hph =>
      have hqn : q ∈ n.preds := by simp [hq]
      obtain ⟨r, hr⟩ := contains_iff.mp (hg.pred_live hb.get?_gone hqn)
      have hqh : q ≠ h := fun he => hg.not_mem_preds hb.get?_gone (he ▸ hqn)
      rw [hb.shapeOf_eq hqh hr, hshape, hph]
    · next hph =>
      obtain ⟨r, hr⟩ := contains_iff.mp (hg.pred_live hm hp)
      exact hb.shapeOf_eq hph hr
  · refine ⟨id, by rw [hpreds, substitute_of_not_mem hread, List.map_id], fun p hp => ?_⟩
    obtain ⟨r, hr⟩ := contains_iff.mp (hg.pred_live hm hp)
    exact hb.shapeOf_eq (fun hph => hread (hph ▸ hp)) hr

/-- If shapes agree and the layer that is left out hands its shapes on, they still agree. -/
theorem agrees (ha : g.Agrees) : g'.Agrees := by
  intro k m' hm' hinput
  obtain ⟨hk, m, hm, hl, -⟩ := hb.origin hg hm'
  obtain ⟨next, hpreds, hshapes⟩ := hb.preds_eq hg hh ho hk hm hm'
  rw [isInput_reworked hl] at hinput
  rw [(hb.shapes_eq hm hm').1, ha k m hm hinput, hpreds, List.map_map]
  exact List.map_congr_left fun p hp => (hshapes p hp).symm

/-- What hands shapes on still does so after a detour. -/
theorem handsOn : HandsOn g' kept := by
  intro k m' hm' hkept hkind hsuccs
  obtain ⟨hk, m, hm, hl, -, hsuccs'⟩ := hb.origin hg hm'
  obtain ⟨next, hpreds, hshapes⟩ := hb.preds_eq hg hh ho hk hm hm'
  rw [steady_isPointwise.reworked hl] at hkind
  have hne : m.succs ≠ [] := by
    intro hnil
    rw [hsuccs', hnil, substitute_nil] at hsuccs
    contradiction
  obtain ⟨p, hp, hshape⟩ := ho k m hm hkept hkind hne
  refine ⟨next p, by rw [hpreds, hp, List.map_singleton], ?_⟩
  rw [hshapes p (by simp [hp]), hshape, hb.shapeOf_eq hk hm]

/-- Convolutions keep their one operand. -/
theorem oneOperand (hone : OneOperand g) : OneOperand g' := by
  intro k m' hm' hkind
  obtain ⟨hk, m, hm, hl, -⟩ := hb.origin hg hm'
  obtain ⟨next, hpreds, -⟩ := hb.preds_eq hg hh ho hk hm hm'
  rw [steady_isConvolution.reworked hl] at hkind
  obtain ⟨p, hp⟩ := hone k m hm hkind
  exact ⟨next p, by rw [hpreds, hp, List.map_singleton]⟩

end Detour

/-- What each step keeps, a run keeps. -/
theorem Detours.agrees {g g' : Graph} {hs kept : List Handle} (hd : Detours g g' hs)
    (hg : g.Linked) (hkept : ∀ h ∈ hs, h ∉ kept) (ho : HandsOn g kept) (ha : g.Agrees) :
    g'.Agrees ∧ HandsOn g' kept ∧ (OneOperand g → OneOperand g') := by
  induction hd with
  | nil g => exact ⟨ha, ho, id⟩
  | cons hb _ ih =>
      obtain ⟨hh, hkept⟩ := List.forall_mem_cons.mp hkept
      obtain ⟨ha', ho', hone⟩ := ih hb.linked hkept (hb.handsOn hg hh ho) (hb.agrees hg hh ho ha)
      exact ⟨ha', ho', fun h => hone (hb.oneOperand hg hh ho h)⟩

/-! ## Padding -/

section Padding

variable {g g' : Graph} {ts : List Handle}

/-- Taking over padding keeps the output shapes. -/
theorem outputShapes_absorbed (g : Graph) (ts : List Handle) (n : Node) :
    (absorbed g ts n).outputShapes = n.layer.outputShapes := by
  rcases absorbed_cases g ts n with ⟨hl, -⟩ | ⟨_, _, _, -, -, -, hl⟩ <;> rw [hl]
  rfl

theorem reworked_absorbed (g : Graph) (ts : List Handle) (n : Node) :
    n.layer.Reworked (absorbed g ts n) := by
  rcases absorbed_cases g ts n with ⟨hl, -⟩ | ⟨_, padding, _, -, -, -, hl⟩ <;> rw [hl]
  · exact .refl _
  · exact ⟨rfl, .inr (.inl ⟨padding, rfl⟩)⟩

def inputShapesOf (g : Graph) (h : Handle) : List Shape :=
  ((g.get? h).map (·.layer.inputShapes)).getD []

theorem paddingOf_eq {t : Handle} {n : Node} (hn : g.get? t = some n)
    (hk : isPadding n.layer.kind = true) :
    ∃ padding, paddingOf g t = some (padding, n.layer.inputShapes) := by
  obtain ⟨found, hfound⟩ := Option.isSome_iff_exists.mp hk
  exact ⟨found.2, by rw [paddingOf, hn, Option.bind_some, hfound, Option.map_some]⟩

/-- A reader ends up with the shapes of the last padding layer that it reads. -/
theorem inputShapes_absorbed
    (hts : ∀ t ∈ ts, ∃ n, g.get? t = some n ∧ isPadding n.layer.kind = true) (n : Node) :
    (absorbed g ts n).inputShapes = match (ts.filter (· ∈ n.preds)).getLast? with
      | some t => inputShapesOf g t
      | none => n.layer.inputShapes := by
  induction ts using List.reverseRecOn with
  | nil => rfl
  | append_singleton ts t ih =>
      obtain ⟨m, hm, hk⟩ := hts t (by simp)
      obtain ⟨padding, hp⟩ := paddingOf_eq hm hk
      rw [absorbed_append_singleton, absorb, hp, List.filter_append]
      by_cases ht : t ∈ n.preds
      · simp [ht, padded, inputShapesOf, hm]
      · simp [ht, ih fun t ht => hts t (List.mem_append_left _ ht)]

variable (hf : Folded g g' (g.handlesWhere isPadding)) (hg : g.Linked)

include hf

/-- Folding padding changes no output shape. -/
theorem shapeOf_folded {k : Handle} (hk : k ∉ g.handlesWhere isPadding) :
    g'.shapeOf k = g.shapeOf k := by
  rw [shapeOf, shapeOf, hf.get?_eq, if_neg hk, Option.map_map]
  cases g.get? k with
  | none => rfl
  | some n =>
      simp only [Option.map_some, Function.comp, foldedNode, Layer.outputShape,
        outputShapes_absorbed]

/-- Every layer that is left was there and has taken over padding. -/
theorem origin_of_folded {k : Handle} {m' : Node} (hm' : g'.get? k = some m') :
    ∃ m, g.get? k = some m ∧ foldedNode g (g.handlesWhere isPadding) m = m' := by
  rw [hf.get?_eq] at hm'
  split at hm'
  · contradiction
  · exact Option.map_eq_some_iff.mp hm'

theorem map_shapeOf_folded {ps : List Handle} (hps : ∀ p ∈ ps, p ∉ g.handlesWhere isPadding) :
    ps.map g'.shapeOf = ps.map g.shapeOf :=
  List.map_congr_left fun p hp => shapeOf_folded hf (hps p hp)

include hg

/-- A layer that is no convolution reads no padding layer. -/
theorem not_mem_of_folded {k t : Handle} {n : Node} (hn : g.get? k = some n)
    (hk : n.layer.kind.padding?.isSome = false) (ht : t ∈ n.preds) :
    t ∉ g.handlesWhere isPadding := by
  intro hmem
  obtain ⟨-, r, hr, -⟩ := mem_handlesWhere.mp hmem
  rw [hf.readers hmem hr ((hg.mem_succs_iff hr hn).mpr ht) hn] at hk
  contradiction

/-- A reader of padding reads what the padding layer read, in the same shapes. -/
theorem agrees_of_folded (hone : OneOperand g) (ha : g.Agrees) : g'.Agrees := by
  intro k m' hm' hinput
  obtain ⟨m, hm, rfl⟩ := origin_of_folded hf hm'
  have hts : ∀ t ∈ g.handlesWhere isPadding, ∃ n, g.get? t = some n ∧
      isPadding n.layer.kind = true := fun t ht => (mem_handlesWhere.mp ht).2
  rw [foldedNode, isInput_reworked (reworked_absorbed ..)] at hinput
  simp only [foldedNode]
  rw [inputShapes_absorbed hts]
  cases hlast : ((g.handlesWhere isPadding).filter (· ∈ m.preds)).getLast? with
  | none =>
      have hnone : ∀ p ∈ m.preds, p ∉ g.handlesWhere isPadding := by
        intro p hp hpad
        have hnil := List.getLast?_eq_none_iff.mp hlast
        exact List.not_mem_nil (hnil ▸ List.mem_filter.mpr ⟨hpad, decide_eq_true hp⟩)
      dsimp only
      rw [around_of_forall_not_mem hnone, map_shapeOf_folded hf hnone, ha k m hm hinput]
  | some t =>
      obtain ⟨ht, htm⟩ := List.mem_filter.mp (List.mem_of_getLast? hlast)
      have htm := of_decide_eq_true htm
      obtain ⟨r, hr, hkind⟩ := hts t ht
      have hconv := hf.readers ht hr ((hg.mem_succs_iff hr hm).mpr htm) hm
      obtain ⟨p, hp⟩ := hone k m hm hconv
      obtain rfl : t = p := by simpa [hp] using htm
      have hnot : r.layer.kind.padding?.isSome = false := by
        rw [padding?_of_isPadding hkind]
        rfl
      have hin : r.layer.isInput = false := by
        rw [Layer.isInput]
        split
        · next hinput => rw [hinput] at hkind; contradiction
        · rfl
      have haround : around g (g.handlesWhere isPadding) Node.preds m.preds = r.preds := by
        simp [around, hp, ht, hr]
      dsimp only
      rw [haround, inputShapesOf, hr, Option.map_some, Option.getD_some, ha t r hr hin,
        map_shapeOf_folded hf fun q hq => not_mem_of_folded hf hg hr hnot hq]

/-- What hands shapes on still does so after padding is folded. -/
theorem handsOn_of_folded {kept : List Handle} (ho : HandsOn g kept) : HandsOn g' kept := by
  intro k m' hm' hkept hkind hsuccs
  obtain ⟨m, hm, rfl⟩ := origin_of_folded hf hm'
  have hkind : isPointwise m.layer.kind = true := by
    rwa [foldedNode, steady_isPointwise.reworked (reworked_absorbed ..)] at hkind
  have hne : m.succs ≠ [] := by
    intro hnil
    rw [foldedNode, hnil] at hsuccs
    contradiction
  obtain ⟨hpad, hconv⟩ : isPadding m.layer.kind = false ∧
      m.layer.kind.padding?.isSome = false := by
    cases hl : m.layer.kind <;> simp_all [isPointwise, isPadding, LayerKind.zeroPadding?,
      LayerKind.padding?]
  obtain ⟨p, hp, hshape⟩ := ho k m hm hkept hkind hne
  have hnot : ∀ q ∈ m.preds, q ∉ g.handlesWhere isPadding :=
    fun q hq => not_mem_of_folded hf hg hm hconv hq
  have hself : k ∉ g.handlesWhere isPadding := by
    intro hmem
    rw [kind_of_mem_handlesWhere hmem hm] at hpad
    contradiction
  refine ⟨p, ?_, ?_⟩
  · simp only [foldedNode]
    rw [around_of_forall_not_mem hnot, hp]
  · rw [shapeOf_folded hf (hnot p (by simp [hp])), shapeOf_folded hf hself, hshape]

end Padding

/-! ## A run -/

/-- What remains when identities and dropouts are taken out. -/
def trained (g : Graph) : List Handle :=
  g.order.filter fun h => (g.get? h).all fun n =>
    !(isIdentity n.layer.kind || isDropout n.layer.kind)

/-- The input shapes of a layer after a run: those of the last padding layer that it read
when identities and dropouts were gone, or else its own. -/
def takenShapes (g : Graph) (n : Node) : List Shape :=
  match ((g.handlesWhere isPadding).filter
      (· ∈ n.preds.flatMap (g.sources (trained g)))).getLast? with
  | some t => inputShapesOf g t
  | none => n.layer.inputShapes

/-- A run of the passes: identities and dropouts go, then padding, then activations, and at
last the layers get new names. -/
structure Stages (g g₂ g₃ g₄ g' : Graph) (hs hs' : List Handle) : Prop where
  linked : g.Linked
  removed : Detours g g₂ hs
  order_eq : g₂.order = trained g
  folded : Folded g₂ g₃ (g₂.handlesWhere isPadding)
  shrinks : Shrinks g₂ g₃ (g₂.handlesWhere isPadding)
  merged : Detours g₃ g₄ hs'
  renamed_linked : g'.Linked
  renamed_order : g'.order = g₄.order
  renamed : ∀ k, g'.get? k = (g₄.get? k).map fun n => n.named (identifier n.name)

/-- Simplification goes through detours, folds padding, and goes through detours again. -/
theorem stages_of_optimize {w w' : Workspace} (hg : w.graph.Linked)
    (ho : optimize w = .ok () w') :
    ∃ g₂ g₃ g₄ hs hs', Stages w.graph g₂ g₃ g₄ w'.graph hs hs' := by
  obtain ⟨v, hall, hgraph⟩ := graph_of_optimize ho
  rw [hgraph]
  obtain ⟨_, v₁, u₁, h₁, hu₁, hall⟩ := executeAll_cons hall
  obtain ⟨_, v₂, u₂, h₂, hu₂, hall⟩ := executeAll_cons hall
  obtain ⟨_, v₃, u₃, h₃, hu₃, hall⟩ := executeAll_cons hall
  obtain ⟨_, v₄, u₄, h₄, hu₄, hall⟩ := executeAll_cons hall
  obtain ⟨_, v₅, u₅, h₅, hu₅, hall⟩ := executeAll_cons hall
  injection hall with _ hall
  subst hall
  have hidentity : ∀ kind, isIdentity kind = true → isPointwise kind = true := by
    intro kind
    cases kind <;> simp [isIdentity, isPointwise]
  have hdropout : ∀ kind, isDropout kind = true → isPointwise kind = true := by
    intro kind
    cases kind <;> simp [isDropout, isPointwise]
  have hd₁ := detours_of_removeWhere hidentity hg h₁
  rw [← hu₁] at hd₁
  have hg₁ := hd₁.shrinks.linked hg
  have hd₂ := detours_of_removeWhere hdropout hg₁ h₂
  rw [← hu₂] at hd₂
  have hg₂ := hd₂.shrinks.linked hg₁
  obtain ⟨hf, hg₃⟩ := folded_of_fusePadding hg₂ h₃
  have hs₃ := shrinks_of_fusePadding hg₂ h₃
  rw [← hu₃] at hf hg₃ hs₃
  obtain ⟨hs, hd₄⟩ := detours_of_fuseActivation hg₃ h₄
  rw [← hu₄] at hd₄
  have hg₄ := hd₄.shrinks.linked hg₃
  refine ⟨u₂.graph, u₃.graph, u₄.graph, _, hs, hg, hd₁.trans hd₂, ?_, hf, hs₃, hd₄,
    hu₅ ▸ linked_renameLayers hg₄ h₅, ?_, ?_⟩
  · rw [(hd₁.trans hd₂).shrinks.order_eq hg, trained]
    refine List.filter_congr fun k hk => ?_
    rw [hd₁.shrinks.handlesWhere_eq hg steady_isDropout]
    obtain ⟨n, hn⟩ := hg.exists_get? hk
    simp only [List.mem_append, List.mem_filter, mem_handlesWhere, hn, hk, true_and,
      Option.some.injEq, exists_eq_left', Option.all_some]
    cases isIdentity n.layer.kind <;> simp
  · rw [hu₅, (renameLayers_cases h₅).1]
  · intro k
    rw [hu₅, get?_renameLayers hg₄ h₅]

namespace Stages

variable {g g₂ g₃ g₄ g' : Graph} {hs hs' : List Handle} (hr : Stages g g₂ g₃ g₄ g' hs hs')

include hr

/-- Every padding layer is still there, as it was, when identities and dropouts are gone. -/
theorem handlesWhere_isPadding : g₂.handlesWhere isPadding = g.handlesWhere isPadding := by
  rw [hr.removed.shrinks.handlesWhere_eq hr.linked steady_isPadding, List.filter_eq_self]
  intro t ht
  obtain ⟨hto, n, hn, hk⟩ := mem_handlesWhere.mp ht
  have hstays : t ∈ g₂.order := by
    rw [hr.order_eq, trained, List.mem_filter, hn, Option.all_some]
    refine ⟨hto, ?_⟩
    cases hl : n.layer.kind <;> simp_all [isPadding, LayerKind.zeroPadding?, isIdentity, isDropout]
  rw [hr.removed.shrinks.order_eq hr.linked] at hstays
  exact (List.mem_filter.mp hstays).2

theorem inputShapesOf_eq {t : Handle} (ht : t ∈ g.handlesWhere isPadding) :
    inputShapesOf g₂ t = inputShapesOf g t := by
  rw [← hr.handlesWhere_isPadding] at ht
  obtain ⟨-, r, hr₂, -⟩ := mem_handlesWhere.mp ht
  obtain ⟨n, hn, -, hins, -⟩ := hr.removed.shapes_eq hr.linked hr₂
  rw [inputShapesOf, inputShapesOf, hr₂, hn, Option.map_some, Option.map_some, hins]

/-- What a layer that stays has become of. -/
theorem origin {k : Handle} {m' : Node} (hm' : g'.get? k = some m') :
    ∃ m, g.get? k = some m ∧ m'.layer.isInput = m.layer.isInput ∧
      m'.preds = m.preds.flatMap (g.sources g'.order) ∧
      m'.layer.inputShapes = takenShapes g m ∧
      m'.layer.outputShapes = m.layer.outputShapes := by
  have hg₂ := hr.removed.shrinks.linked hr.linked
  have hg₃ := hr.shrinks.linked hg₂
  rw [hr.renamed] at hm'
  obtain ⟨m₄, hm₄, rfl⟩ := Option.map_eq_some_iff.mp hm'
  obtain ⟨m₃, hm₃, hin₃, hins₃, houts₃⟩ := hr.merged.shapes_eq hg₃ hm₄
  obtain ⟨m₂, hm₂, rfl⟩ := origin_of_folded hr.folded hm₃
  obtain ⟨m, hm, hin, hins, houts⟩ := hr.removed.shapes_eq hr.linked hm₂
  refine ⟨m, hm, ?_, ?_, ?_, ?_⟩
  · exact (hin₃.trans (isInput_reworked (reworked_absorbed ..))).trans hin
  · obtain ⟨r, hr', hpreds⟩ :=
      (hr.removed.shrinks.trans (hr.shrinks.trans hr.merged.shrinks)).preds_eq hr.linked hm₄
    cases hm.symm.trans hr'
    rw [hr.renamed_order]
    exact hpreds
  · obtain ⟨r, hr', hpreds⟩ := hr.removed.shrinks.preds_eq hr.linked hm₂
    cases hm.symm.trans hr'
    have htaken : (absorbed g₂ (g₂.handlesWhere isPadding) m₂).inputShapes = takenShapes g m := by
      rw [inputShapes_absorbed fun t ht => (mem_handlesWhere.mp ht).2, takenShapes,
        hr.handlesWhere_isPadding, hpreds, hr.order_eq, hins]
      split
      · next t hlast =>
        exact hr.inputShapesOf_eq (List.mem_filter.mp (List.mem_of_getLast? hlast)).1
      · rfl
    exact hins₃.trans htaken
  · exact (houts₃.trans (outputShapes_absorbed ..)).trans houts

/-- A layer that stays writes the shape that it wrote. -/
theorem shapeOf_eq {k : Handle} (hk : g'.contains k = true) : g'.shapeOf k = g.shapeOf k := by
  obtain ⟨m', hm'⟩ := contains_iff.mp hk
  obtain ⟨m, hm, -, -, -, houts⟩ := hr.origin hm'
  rw [shapeOf, shapeOf, hm, hm', Option.map_some, Option.map_some, Layer.outputShape,
    Layer.outputShape, houts]

/-- The shapes agree when, for each layer that stays, what it has taken over is what the
layers write that it leads back to. -/
theorem agrees_iff :
    g'.Agrees ↔ ∀ k n, k ∈ g'.order → g.get? k = some n → n.layer.isInput = false →
      takenShapes g n = (n.preds.flatMap (g.sources g'.order)).map g.shapeOf := by
  have hnode : ∀ {k m' m}, g'.get? k = some m' → g.get? k = some m →
      m'.layer.isInput = m.layer.isInput ∧ (m'.layer.inputShapes = m'.preds.map g'.shapeOf ↔
        takenShapes g m = (m.preds.flatMap (g.sources g'.order)).map g.shapeOf) := by
    intro k m' m hm' hm
    have hsame : m'.preds.map g'.shapeOf = m'.preds.map g.shapeOf :=
      List.map_congr_left fun p hp => hr.shapeOf_eq (hr.renamed_linked.pred_live hm' hp)
    obtain ⟨r, hr', hin, hpreds, hins, -⟩ := hr.origin hm'
    cases hm.symm.trans hr'
    rw [hsame, hpreds, hins]
    exact ⟨hin, Iff.rfl⟩
  constructor
  · intro ha k n hk hn hinput
    obtain ⟨m', hm'⟩ := hr.renamed_linked.exists_get? hk
    obtain ⟨hin, hiff⟩ := hnode hm' hn
    exact hiff.mp (ha k m' hm' (hin.trans hinput))
  · intro hall k m' hm' hinput
    obtain ⟨m, hm, -⟩ := hr.origin hm'
    obtain ⟨hin, hiff⟩ := hnode hm' hm
    exact hiff.mpr (hall k m (hr.renamed_linked.mem_of_get? hm') hm (hin ▸ hinput))

/-- What is taken out on the way is not there at the end. -/
theorem not_mem_order {h : Handle} (hh : h ∈ hs ∨ h ∈ hs') : h ∉ g'.order := by
  rw [hr.renamed_order,
    (hr.removed.shrinks.trans (hr.shrinks.trans hr.merged.shrinks)).order_eq hr.linked,
    List.mem_filter]
  rcases hh with hh | hh <;> simp [hh]

theorem agrees (ha : g.Agrees) (ho : HandsOn g g'.order) (hone : OneOperand g) : g'.Agrees := by
  have hg₂ := hr.removed.shrinks.linked hr.linked
  have hg₃ := hr.shrinks.linked hg₂
  obtain ⟨ha₂, ho₂, hone₂⟩ :=
    hr.removed.agrees hr.linked (fun h hh => hr.not_mem_order (.inl hh)) ho ha
  obtain ⟨ha₄, -, -⟩ := hr.merged.agrees hg₃ (fun h hh => hr.not_mem_order (.inr hh))
    (handsOn_of_folded hr.folded hg₂ ho₂) (agrees_of_folded hr.folded hg₂ (hone₂ hone) ha₂)
  have hshape : ∀ k, g'.shapeOf k = g₄.shapeOf k := by
    intro k
    rw [shapeOf, shapeOf, hr.renamed, Option.map_map]
    rfl
  intro k m' hm' hinput
  rw [hr.renamed] at hm'
  obtain ⟨m, hm, rfl⟩ := Option.map_eq_some_iff.mp hm'
  rw [List.map_congr_left fun p _ => hshape p]
  exact ha₄ k m hm hinput

end Stages

/-- In the graph of a description, shapes agree. -/
theorem agrees_of_built {ls : List Model.LayerLine} {weights : List Model.WeightLine} {g : Graph}
    (hg : Model.Built ls weights g) : g.Agrees := by
  have hshape : ∀ {p}, g.contains p = true → some (g.shapeOf p) = ls[p]?.map (·.output) := by
    intro p hp
    obtain ⟨n, hn⟩ := contains_iff.mp hp
    obtain ⟨l, hl, hd⟩ := hg.exists_line hn
    rw [hl, shapeOf, hn, Option.map_some, Option.map_some, Layer.outputShape, hd.outputShapes]
    rfl
  intro h n hn hinput
  obtain ⟨l, hl, hd⟩ := hg.exists_line hn
  have hne : h ≠ 0 := fun hzero => by
    rw [(hd.input hzero).1] at hinput
    contradiction
  refine List.map_injective_iff.mpr (Option.some_injective Shape) ?_
  rw [hd.inputShapes hne, List.map_map]
  exact List.map_congr_left fun p hp => (hshape (hg.pred_live hn hp)).symm

/-- Shapes agree across the edges of the graph that is read.  After a run of the passes they
agree exactly when each layer that stays has taken over the shapes that the layers write to
which its operands led back.  That is so when layers that are taken out hand on the shape of
their one operand, and convolutions have one operand. -/
theorem agrees_optimize_iff {text : String} {g : Graph} {s : Session} {w' : Workspace}
    (hp : Model.parse text = .ok g) (ho : optimize ⟨g, s⟩ = .ok () w') :
    g.Agrees ∧
    (w'.graph.Agrees ↔
      ∀ k n, k ∈ w'.graph.order → g.get? k = some n → n.layer.isInput = false →
        takenShapes g n = (n.preds.flatMap (g.sources w'.graph.order)).map g.shapeOf) ∧
    (HandsOn g w'.graph.order → OneOperand g → w'.graph.Agrees) := by
  obtain ⟨-, hg⟩ := Model.built_of_parse hp
  obtain ⟨_, _, _, _, _, hr⟩ := stages_of_optimize hg.toLinked ho
  exact ⟨agrees_of_built hg, hr.agrees_iff, hr.agrees (agrees_of_built hg)⟩

/-- A property of all layers is decided along the order. -/
theorem all_of_forall_order {g : Graph} {p : Handle → Node → Bool} (hl : g.Listed)
    (hall : ∀ h ∈ g.order, (g.get? h).all (p h) = true) {h : Handle} {n : Node}
    (hn : g.get? h = some n) : p h n = true := by
  have hh := hall h (hl h (contains_iff.mpr ⟨n, hn⟩))
  rwa [hn] at hh

/-- Padding behind an identity, and a rectifier in front of a dropout. -/
def plainText : String :=
  "x = input() -> [1, 2, 1]
  i = identity(x) -> [1, 2, 1]
  pad = zeropadding1d(i) padding=1 -> [1, 4, 1]
  conv = conv1d(pad) -> [1, 2, 1]
  conv.kernel [1, 3, 1] = 0 0 0
  relu = activation(conv) activation=relu -> [1, 2, 1]
  drop = dropout(relu) -> [1, 2, 1]
  y = add(drop, x) -> [1, 2, 1]"

def plain : Graph where
  slots := [
    some ⟨.source "x" [1, 2, 1], none, [], [1, 6]⟩,
    some ⟨⟨"i", [[1, 2, 1]], [[1, 2, 1]], .float32, .identity⟩, none, [0], [2]⟩,
    some ⟨⟨"pad", [[1, 2, 1]], [[1, 4, 1]], .float32, .zeroPadding1D [(1, 1)]⟩, none, [1], [3]⟩,
    some ⟨⟨"conv", [[1, 4, 1]], [[1, 2, 1]], .float32, .conv1D {
      filters := 1, kernelSize := [3], strides := [1], groups := 1, padding := [(0, 0)],
      activation := .linear, bias := none,
      kernel := ⟨[1, 3, 1], .f32 (List.replicate 3 (Float32.ofBits 0))⟩ }⟩, none, [2], [4]⟩,
    some ⟨⟨"relu", [[1, 2, 1]], [[1, 2, 1]], .float32, .activation .relu⟩, none, [3], [5]⟩,
    some ⟨⟨"drop", [[1, 2, 1]], [[1, 2, 1]], .float32, .dropout (Float32.ofBits 0x3F000000)⟩,
      none, [4], [6]⟩,
    some ⟨⟨"y", [[1, 2, 1], [1, 2, 1]], [[1, 2, 1]], .float32, .add .linear⟩, none, [5, 0], []⟩]
  order := [0, 1, 2, 3, 4, 5, 6]

set_option maxRecDepth 4000 in
theorem parse_plainText : Model.parse plainText = .ok plain :=
  Model.parse_of_toList String.toList_ofList (by decide +kernel)

/-- Padding, a rectifier and two layers that pass on are gone, and all shapes agree. -/
theorem agrees_plain : Model.parse plainText = .ok plain ∧
    ∃ w', optimize ⟨plain, {}⟩ = .ok () w' ∧ w'.graph.order = [0, 3, 6] ∧
      HandsOn plain w'.graph.order ∧ OneOperand plain ∧ w'.graph.Agrees := by
  have hl : plain.Listed := (Model.built_of_parse parse_plainText).2.listed
  have hhands : HandsOn plain [0, 3, 6] := by
    intro h n hn hgone hkind _
    have hall : ∀ h ∈ plain.order, (plain.get? h).all (fun n => decide (h ∈ [0, 3, 6] ∨
        isPointwise n.layer.kind = false ∨ n.preds.map plain.shapeOf = [plain.shapeOf h])) =
          true := by
      decide
    have hread := of_decide_eq_true (all_of_forall_order hl hall hn)
    rw [hkind] at hread
    simpa [List.map_eq_singleton_iff, -List.mem_cons, hgone] using hread
  have hone : OneOperand plain := by
    intro h n hn hkind
    have hall : ∀ h ∈ plain.order, (plain.get? h).all (fun n =>
        decide (n.layer.kind.padding?.isSome = false ∨ n.preds.length = 1)) = true := by
      decide
    have hread := of_decide_eq_true (all_of_forall_order hl hall hn)
    rw [hkind] at hread
    simpa [List.length_eq_one_iff] using hread
  have hrun : Work.leaves (fun _ w' => w'.graph.order = [0, 3, 6]) (optimize ⟨plain, {}⟩) =
      true := by
    decide +kernel
  obtain ⟨_, w', ho, hleft⟩ := Work.exists_of_leaves hrun
  have horder : w'.graph.order = [0, 3, 6] := of_decide_eq_true hleft
  exact ⟨parse_plainText, w', ho, horder, horder ▸ hhands, hone,
    (agrees_optimize_iff parse_plainText ho).2.2 (horder ▸ hhands) hone⟩

/-- A description that is accepted and simplified, after which a layer reads other shapes
than its operands write. -/
def Disagrees (text : String) (k : Handle) : Prop :=
  ∃ g w', Model.parse text = .ok g ∧ g.verify = .ok () ∧ optimize ⟨g, {}⟩ = .ok () w' ∧
    (w'.graph.get? k).any (fun n => !n.layer.isInput &&
      decide (n.layer.inputShapes ≠ n.preds.map w'.graph.shapeOf)) = true

/-- What is accepted can be simplified to see that shapes disagree. -/
theorem disagrees_of_leaves {text : String} {g : Graph} {k : Handle}
    (hp : Model.parse text = .ok g) (hv : g.verify = .ok ())
    (hrun : Work.leaves (fun _ w' => (w'.graph.get? k).any fun n => !n.layer.isInput &&
      decide (n.layer.inputShapes ≠ n.preds.map w'.graph.shapeOf)) (optimize ⟨g, {}⟩) = true) :
    Disagrees text k := by
  obtain ⟨_, w', ho, hleft⟩ := Work.exists_of_leaves hrun
  exact ⟨g, w', hp, hv, ho, hleft⟩

/-- An identity that writes another shape than it reads. -/
def reshaped : Graph where
  slots := [some ⟨.source "x" [1, 2, 2], none, [], [1]⟩,
    some ⟨⟨"i", [[1, 2, 2]], [[1, 4]], .float32, .identity⟩, none, [0], [2]⟩,
    some ⟨⟨"y", [[1, 4]], [[1, 4]], .float32, .flatten⟩, none, [1], []⟩]
  order := [0, 1, 2]

/-- An identity with two operands. -/
def joined : Graph where
  slots := [some ⟨.source "x" [1, 2], none, [], [1, 1]⟩,
    some ⟨⟨"i", [[1, 2], [1, 2]], [[1, 2]], .float32, .identity⟩, none, [0, 0], [2]⟩,
    some ⟨⟨"y", [[1, 2]], [[1, 2]], .float32, .flatten⟩, none, [1], []⟩]
  order := [0, 1, 2]

/-- A convolution that reads padding beside another operand. -/
def paddedBeside : Graph where
  slots := [some ⟨.source "x" [1, 2, 1], none, [], [1, 2]⟩,
    some ⟨⟨"p", [[1, 2, 1]], [[1, 4, 1]], .float32, .zeroPadding1D [(1, 1)]⟩, none, [0], [2]⟩,
    some ⟨⟨"y", [[1, 4, 1], [1, 2, 1]], [[1, 2, 1]], .float32, .conv1D {
      filters := 1, kernelSize := [1], strides := [1], groups := 1, padding := [(0, 0)],
      activation := .linear, kernel := ⟨[1], .f32 [Float32.ofBits 0]⟩, bias := none }⟩,
      none, [1, 0], []⟩]
  order := [0, 1, 2]

set_option maxRecDepth 2000 in
theorem parse_reshaped : Model.parse
    "x = input() -> [1, 2, 2]\ni = identity(x) -> [1, 4]\ny = flatten(i) -> [1, 4]" =
      .ok reshaped :=
  Model.parse_of_toList String.toList_ofList (by decide +kernel)

set_option maxRecDepth 2000 in
theorem parse_joined : Model.parse
    "x = input() -> [1, 2]\ni = identity(x, x) -> [1, 2]\ny = flatten(i) -> [1, 2]" =
      .ok joined :=
  Model.parse_of_toList String.toList_ofList (by decide +kernel)

set_option maxRecDepth 2000 in
theorem parse_paddedBeside : Model.parse
    "x = input() -> [1, 2, 1]\np = zeropadding1d(x) padding=1 -> [1, 4, 1]
    y = conv1d(p, x) -> [1, 2, 1]\ny.kernel [1] = 0" = .ok paddedBeside :=
  Model.parse_of_toList String.toList_ofList (by decide +kernel)

/-- Leading edges around a layer leaves its reader with the shapes that the layer wrote, and
padding that is taken over replaces the shapes of all operands. -/
theorem disagrees_after_optimize :
    Disagrees "x = input() -> [1, 2, 2]\ni = identity(x) -> [1, 4]\ny = flatten(i) -> [1, 4]" 2 ∧
    Disagrees "x = input() -> [1, 2]\ni = identity(x, x) -> [1, 2]\ny = flatten(i) -> [1, 2]" 2 ∧
    Disagrees "x = input() -> [1, 2, 1]\np = zeropadding1d(x) padding=1 -> [1, 4, 1]
    y = conv1d(p, x) -> [1, 2, 1]\ny.kernel [1] = 0" 2 :=
  ⟨disagrees_of_leaves parse_reshaped (by decide) (by decide +kernel),
    disagrees_of_leaves parse_joined (by decide) (by decide +kernel),
    disagrees_of_leaves parse_paddedBeside (by decide) (by decide +kernel)⟩

end Simplify

end NeuralC
