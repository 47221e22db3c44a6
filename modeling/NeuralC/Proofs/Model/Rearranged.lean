import NeuralC.Proofs.Model.Build

/-!
# NeuralC.Proofs.Model.Rearranged

Weights may stand anywhere in a description.  Two texts are `Rearranged` when
they have the same layer lines in the same order and the same weight lines in
any order, wherever these stand and whatever blank lines and comments are
between them.  A text is then read as the same graph (`parse_rearranged`).

The number of a line is only ever told in a report, so what a line states does
not depend on its place, and neither does the layer that is made of it: two
results are `Alike` when both are reports or both are the same value, and every
reader of a declaration is alike for a line at another place and for weights
that are found under the same targets.
-/

namespace NeuralC

/-! ## Results that succeed alike -/

/-- Both results are failures, or both are values and related. -/
def Alike {ε α β : Type} (R : α → β → Prop) : Except ε α → Except ε β → Prop
  | .ok a, .ok b => R a b
  | .error _, .error _ => True
  | _, _ => False

namespace Alike

variable {ε α β γ δ : Type} {R : α → β → Prop} {S : γ → δ → Prop}

theorem refl {x : Except ε α} : Alike Eq x x := by
  cases x with
  | ok a => exact rfl
  | error e => trivial

/-- What is alike succeeds with the same value. -/
theorem eq_ok {x y : Except ε α} (h : Alike Eq x y) {a : α} (hx : x = .ok a) : y = .ok a := by
  subst hx
  cases y with
  | ok b => exact congrArg Except.ok (Eq.symm h)
  | error e => exact h.elim

/-- Alike computations in sequence are alike. -/
theorem bind {x : Except ε α} {y : Except ε β} {f : α → Except ε γ} {f' : β → Except ε δ}
    (h : Alike R x y) (hf : ∀ a b, R a b → Alike S (f a) (f' b)) :
    Alike S (x >>= f) (y >>= f') := by
  cases x with
  | ok a =>
      cases y with
      | ok b => exact hf a b h
      | error e => exact h.elim
  | error e =>
      cases y with
      | ok b => exact h.elim
      | error e' => trivial

theorem andThen {x y : Except ε α} {f : α → Except ε γ} {f' : α → Except ε γ} (h : Alike Eq x y)
    (hf : ∀ a, Alike Eq (f a) (f' a)) : Alike Eq (x >>= f) (y >>= f') :=
  h.bind fun a _ hab => hab ▸ hf a

theorem mapM {f f' : α → Except ε γ} (hf : ∀ a, Alike Eq (f a) (f' a)) (as : List α) :
    Alike Eq (as.mapM f) (as.mapM f') := by
  induction as with
  | nil => exact refl
  | cons a as ih =>
      rw [List.mapM_cons, List.mapM_cons]
      exact (hf a).andThen fun _ => ih.andThen fun _ => refl

theorem ite {p : Prop} [Decidable p] {x x' : Except ε α} {y y' : Except ε β}
    (ht : p → Alike R x y) (he : ¬p → Alike R x' y') :
    Alike R (if p then x else x') (if p then y else y') := by
  by_cases hp : p
  · rw [if_pos hp, if_pos hp]
    exact ht hp
  · rw [if_neg hp, if_neg hp]
    exact he hp

end Alike

namespace Model

open NeuralC.Text

/-! ## A line at another place -/

def LayerLine.moved (l : LayerLine) (line : Nat) : LayerLine := { l with line := line }

def WeightLine.moved (w : WeightLine) (line : Nat) : WeightLine := { w with line := line }

def Statement.moved (line : Nat) : Statement → Statement
  | .layer l => .layer (l.moved line)
  | .weight w => .weight (w.moved line)

/-- The number of a line is only noted in what is read from it. -/
theorem layerLine_moved (line place : Nat) (name : String) (cs : List Char) :
    layerLine line name cs = (layerLine place name cs).map (·.moved line) := by
  unfold layerLine
  repeat refine bind_eq_map fun _ => ?_
  rfl

/-- This holds for a weight line as well. -/
theorem weightLine_moved (line place : Nat) (target : String) (cs : List Char) :
    weightLine line target cs = (weightLine place target cs).map (·.moved line) := by
  unfold weightLine
  split
  · rfl
  · iterate 3 refine bind_eq_map fun _ => ?_
    rfl

/-- What a line states does not depend on its place. -/
theorem statement_moved (line place : Nat) (cs : List Char) :
    statement line cs = (statement place cs).map (Statement.moved line) := by
  unfold statement
  refine bind_eq_map ?_
  rintro ⟨head, rest⟩
  dsimp only
  split
  · rw [layerLine_moved line place]
    cases layerLine place head rest <;> rfl
  · rw [weightLine_moved line place]
    cases weightLine place head rest <;> rfl
  · rfl

/-! ## A declaration at another place -/

/-- Under every target the same tensor is found. -/
def SameWeights (weights other : List WeightLine) : Prop :=
  ∀ layer role, (weight? weights layer role).map WeightLine.tensor =
    (weight? other layer role).map WeightLine.tensor

theorem WeightLine.values_eq {w v : WeightLine} (h : w.tensor = v.tensor) :
    w.values = v.values := by
  injection h with _ hdata
  injection hdata

namespace SameWeights

variable {weights other : List WeightLine} (hw : SameWeights weights other) (layer role : String)

include hw

/-- A weight is missing from both or is the same tensor in both. -/
theorem cases : (weight? weights layer role = none ∧ weight? other layer role = none) ∨
    ∃ w v, weight? weights layer role = some w ∧ weight? other layer role = some v ∧
      w.tensor = v.tensor := by
  have htensor := hw layer role
  cases hfound : weight? weights layer role with
  | none =>
      rw [hfound, eq_comm, Option.map_none, Option.map_eq_none_iff] at htensor
      exact .inl ⟨rfl, htensor⟩
  | some w =>
      rw [hfound, eq_comm, Option.map_some, Option.map_eq_some_iff] at htensor
      obtain ⟨v, hv, htensor⟩ := htensor
      exact .inr ⟨w, v, rfl, hv, htensor.symm⟩

theorem values : (weight? weights layer role).map (·.values) =
    (weight? other layer role).map (·.values) := by
  obtain ⟨hnone, hnone'⟩ | ⟨w, v, hsome, hsome', htensor⟩ := hw.cases layer role
  · rw [hnone, hnone']
  · rw [hsome, hsome', Option.map_some, Option.map_some, WeightLine.values_eq htensor]

end SameWeights

namespace LayerLine

variable (d : LayerLine) (line : Nat)

@[simp] theorem name_moved : (d.moved line).name = d.name := rfl

@[simp] theorem kind_moved : (d.moved line).kind = d.kind := rfl

theorem alike_fault {α : Type} {R : α → α → Prop} (d d' : LayerLine) (cause cause' : ModelCause) :
    Alike R (d.fault cause) (d'.fault cause') := trivial

theorem alike_allow (keys : List String) : Alike Eq (d.allow keys) ((d.moved line).allow keys) := by
  unfold allow
  dsimp only [moved]
  split
  · exact alike_fault ..
  · exact .refl

/-- A parameter is parsed alike wherever the line stands. -/
theorem alike_parse {α : Type} (key : String) (read : List Char → Option α) (text : List Char) :
    Alike Eq (d.parse key read text) ((d.moved line).parse key read text) := by
  unfold parse
  split
  · exact .refl
  · exact alike_fault ..

@[simp] theorem param?_moved (key : String) : (d.moved line).param? key = d.param? key := rfl

theorem alike_number {α : Type} (key : String) (read : List Char → Option α) (default : α) :
    Alike Eq (d.number key read default) ((d.moved line).number key read default) := by
  simp only [number, param?_moved]
  cases d.param? key with
  | none => exact .refl
  | some text => exact alike_parse ..

theorem alike_numberList {α : Type} (key : String) (read : List Char → Option α)
    (default : List α) :
    Alike Eq (d.numberList key read default) ((d.moved line).numberList key read default) := by
  simp only [numberList, param?_moved]
  cases d.param? key with
  | none => exact .refl
  | some text => exact .mapM (fun _ => alike_parse ..) _

theorem alike_activation : Alike Eq d.activation (d.moved line).activation := by
  simp only [activation, param?_moved]
  cases d.param? "activation" with
  | none => exact .refl
  | some text =>
      dsimp only
      cases Activation.read text with
      | ok a => exact .refl
      | error w => exact alike_fault ..

theorem alike_padding (rank : Nat) : Alike Eq (d.padding rank) ((d.moved line).padding rank) := by
  simp only [padding, param?_moved]
  cases d.param? "padding" with
  | none => exact .refl
  | some text =>
      refine .mapM (fun pair => ?_) _
      exact (alike_parse ..).andThen fun _ => (alike_parse ..).andThen fun _ => .refl

theorem alike_slices : Alike Eq d.slices (d.moved line).slices := by
  simp only [slices, param?_moved]
  cases d.param? "slices" with
  | none => exact alike_fault ..
  | some text =>
      refine .mapM (fun range => ?_) _
      split
      · exact (alike_parse ..).andThen fun _ => (alike_parse ..).andThen fun _ =>
          (alike_parse ..).andThen fun _ => .refl
      · exact alike_fault ..

theorem alike_normMode : Alike Eq d.normMode (d.moved line).normMode := by
  simp only [normMode, param?_moved]
  exact .ite (fun _ => .refl) fun _ => .ite (fun _ => .refl) fun _ => alike_fault ..

theorem alike_pooling (rank : Nat) : Alike Eq (d.pooling rank) ((d.moved line).pooling rank) := by
  unfold pooling
  exact (alike_allow ..).andThen fun _ => (alike_numberList ..).andThen fun _ =>
    (alike_numberList ..).andThen fun _ => (alike_activation ..).andThen fun _ => .refl

section Weights

variable {weights other : List WeightLine} (hw : SameWeights weights other)

include hw

/-- A required weight is alike in both. -/
theorem alike_require (role : String) :
    Alike (fun w v => w.tensor = v.tensor) (d.require weights role)
      ((d.moved line).require other role) := by
  simp only [require, name_moved]
  obtain ⟨hnone, hnone'⟩ | ⟨w, v, hsome, hsome', htensor⟩ := hw.cases d.name role
  · rw [hnone, hnone']
    exact alike_fault ..
  · rw [hsome, hsome']
    exact htensor

/-- A convolution is made alike from weights that are alike. -/
theorem alike_convolution (rank : Nat) :
    Alike Eq (d.convolution weights rank) ((d.moved line).convolution other rank) := by
  unfold convolution
  refine (alike_allow ..).andThen fun _ => (alike_require d line hw "kernel").bind fun w v hwv => ?_
  have hshape : w.shape = v.shape := congrArg Tensor.shape hwv
  have hbias := hw d.name "bias"
  rw [hshape, hwv, hbias]
  exact (alike_number ..).andThen fun _ => (alike_numberList ..).andThen fun _ =>
    (alike_numberList ..).andThen fun _ => (alike_number ..).andThen fun _ =>
    (alike_padding ..).andThen fun _ => (alike_activation ..).andThen fun _ => .refl

theorem alike_dense : Alike Eq (d.dense weights) ((d.moved line).dense other) := by
  unfold dense
  refine (alike_allow ..).andThen fun _ => (alike_number ..).andThen fun _ =>
    (alike_activation ..).andThen fun _ => (alike_require d line hw "kernel").bind fun w v hwv => ?_
  have hbias := hw d.name "bias"
  rw [hwv, hbias]
  exact .refl

theorem alike_batchNorm : Alike Eq (d.batchNorm weights) ((d.moved line).batchNorm other) := by
  unfold batchNorm
  refine (alike_allow ..).andThen fun _ => (alike_activation ..).andThen fun a => ?_
  simp only [name_moved, param?_moved, hw.values]
  obtain ⟨hnone, hnone'⟩ | ⟨w, v, hsome, hsome', htensor⟩ := hw.cases d.name "kernel"
  · rw [hnone, hnone']
    refine (alike_require d line hw "moving_mean").bind fun mean mean' hmean => ?_
    refine (alike_require d line hw "moving_variance").bind fun variance variance' hvariance => ?_
    rw [WeightLine.values_eq hmean, WeightLine.values_eq hvariance]
    refine (alike_number ..).andThen fun epsilon => ?_
    cases BatchNorm.ofStatistics? _ _ _ _ epsilon a with
    | some b => exact .refl
    | none => exact alike_fault ..
  · rw [hsome, hsome']
    refine .ite (fun _ => alike_fault ..) fun _ => ?_
    refine (alike_require d line hw "bias").bind fun bias bias' hbias => ?_
    rw [htensor, hbias]
    exact .refl

/-- A layer is made alike from its line at another place. -/
theorem alike_layerKind :
    Alike Eq (d.layerKind weights) ((d.moved line).layerKind other) := by
  simp only [layerKind, kind_moved]
  split
  case h_1 | h_2 => exact (alike_convolution d line hw _).andThen fun _ => .refl
  case h_3 => exact (alike_dense d line hw).andThen fun _ => .refl
  case h_4 | h_5 | h_6 | h_7 => exact (alike_pooling ..).andThen fun _ => .refl
  case h_8 | h_9 => exact (alike_batchNorm d line hw).andThen fun _ => .refl
  case h_10 | h_11 =>
    exact (alike_allow ..).andThen fun _ => (alike_activation ..).andThen fun _ => .refl
  case h_12 | h_13 => exact (alike_allow ..).andThen fun _ => .refl
  case h_14 | h_17 =>
    exact (alike_allow ..).andThen fun _ => (alike_number ..).andThen fun _ => .refl
  case h_15 | h_16 =>
    exact (alike_allow ..).andThen fun _ => (alike_padding ..).andThen fun _ => .refl
  case h_18 => exact (alike_allow ..).andThen fun _ => (alike_slices ..).andThen fun _ => .refl
  case h_19 | h_21 | h_22 =>
    exact (alike_allow ..).andThen fun _ => (alike_numberList ..).andThen fun _ => .refl
  case h_20 => exact (alike_allow ..).andThen fun _ => (alike_normMode ..).andThen fun _ => .refl
  case h_23 => exact alike_fault ..

end Weights

end LayerLine

/-! ## A graph from declarations at other places -/

section Weights

variable {weights other : List WeightLine} (hw : SameWeights weights other)

theorem alike_operand (g : Graph) (l : LayerLine) (line : Nat) (name : String) :
    Alike Eq (operand g l name) (operand g (l.moved line) name) := by
  unfold operand
  cases g.find? name with
  | some h => exact .refl
  | none => exact LayerLine.alike_fault ..

include hw

/-- A layer enters the graph alike from its line at another place. -/
theorem alike_addLayer (g : Graph) (l : LayerLine) (line : Nat) :
    Alike Eq (addLayer weights g l) (addLayer other g (l.moved line)) := by
  unfold addLayer
  refine .ite (fun _ => LayerLine.alike_fault ..) fun _ => ?_
  refine (Alike.mapM (fun name => alike_operand g l line name) l.inputs).andThen fun preds => ?_
  refine .ite (fun _ => LayerLine.alike_fault ..) fun _ => ?_
  refine (LayerLine.alike_layerKind l line hw).andThen fun kind => ?_
  exact .refl

/-- The lines of the layers do not matter for the graph. -/
theorem alike_addLayers {ls ls' : List LayerLine}
    (hls : ls.map (·.moved 0) = ls'.map (·.moved 0)) (g : Graph) :
    Alike Eq (ls.foldlM (addLayer weights) g) (ls'.foldlM (addLayer other) g) := by
  induction ls generalizing ls' g with
  | nil =>
      rw [List.map_nil, eq_comm, List.map_eq_nil_iff] at hls
      rw [hls]
      exact .refl
  | cons l ls ih =>
      cases ls' with
      | nil => cases hls
      | cons l' ls' =>
          injection hls with hl hls
          have hmoved : l' = l.moved l'.line := by
            have hback := congrArg (·.moved l'.line) hl
            exact hback.symm
          rw [List.foldlM_cons, List.foldlM_cons, hmoved]
          exact (alike_addLayer hw g l l'.line).andThen fun g' => ih hls g'

/-- A layer takes the same roles in both. -/
theorem roles_moved (l : LayerLine) (line : Nat) :
    (l.moved line).roles other = l.roles weights := by
  have hkernel : (weight? other l.name "kernel").isSome =
      (weight? weights l.name "kernel").isSome := by
    rw [← Option.isSome_map (f := WeightLine.tensor), ← hw, Option.isSome_map]
  simp only [LayerLine.roles, LayerLine.kind_moved, LayerLine.name_moved, hkernel]

/-- Nor do they matter for what a weight belongs to. -/
theorem isUsed_moved {ls ls' : List LayerLine} (hls : ls.map (·.moved 0) = ls'.map (·.moved 0))
    {w v : WeightLine} (hwv : w.target = v.target) : isUsed ls weights w = isUsed ls' other v := by
  have hleft : isUsed ls weights w = isUsed (ls.map (·.moved 0)) other w := by
    rw [isUsed, isUsed, List.any_map]
    congr 1
    funext l
    rw [Function.comp_apply, roles_moved hw, LayerLine.name_moved]
  have hright : isUsed ls' other v = isUsed (ls'.map (·.moved 0)) other v := by
    rw [isUsed, isUsed, List.any_map]
    rfl
  obtain ⟨hlayer, hrole⟩ : w.layer = v.layer ∧ w.role = v.role := Prod.mk.inj hwv
  rw [hleft, hright, hls, isUsed, isUsed, hlayer, hrole]

end Weights

/-- The order of the weights and their lines do not matter for what is found. -/
theorem sameWeights_of_perm {weights other : List WeightLine}
    (hperm : (weights.map (·.moved 0)).Perm (other.map (·.moved 0)))
    (hnodup : (weights.map WeightLine.target).Nodup) : SameWeights weights other := by
  have hmoved (ws : List WeightLine) (layer role : String) :
      (weight? ws layer role).map WeightLine.tensor =
        (weight? (ws.map (·.moved 0)) layer role).map WeightLine.tensor := by
    rw [weight?, weight?, List.find?_map, Option.map_map]
    rfl
  have hleft : ((weights.map (·.moved 0)).map WeightLine.target).Nodup := by
    rwa [List.map_map]
  have hright : ((other.map (·.moved 0)).map WeightLine.target).Nodup :=
    (hperm.map _).nodup_iff.mp hleft
  intro layer role
  rw [hmoved weights, hmoved other]
  congr 1
  ext w
  rw [weight?_eq_some_iff hleft, weight?_eq_some_iff hright, hperm.mem_iff]

/-- The same layers in the same order, with the same weights in any order, build the same graph. -/
theorem build_moved {ls ls' : List LayerLine} {weights other : List WeightLine} {g : Graph}
    (hls : ls.map (·.moved 0) = ls'.map (·.moved 0))
    (hperm : (weights.map (·.moved 0)).Perm (other.map (·.moved 0)))
    (hnodup : (weights.map WeightLine.target).Nodup) (h : build ⟨ls, weights⟩ = .ok g) :
    build ⟨ls', other⟩ = .ok g := by
  have hw := sameWeights_of_perm hperm hnodup
  obtain ⟨first, rest, g₀, h₀, hlayers, hkind, hinputs, hadd, hfold, hused⟩ := build_eq_ok_iff.mp h
  dsimp only at hlayers hfold hused
  subst hlayers
  cases ls' with
  | nil => cases hls
  | cons first' rest' =>
      injection hls with hfirst hrest
      obtain ⟨hname, hkind', hinputs', houtput⟩ :
          first.name = first'.name ∧ first.kind = first'.kind ∧ first.inputs = first'.inputs ∧
            first.output = first'.output := by
        injection hfirst with _ hname hkind hinputs _ houtput
        exact ⟨hname, hkind, hinputs, houtput⟩
      refine build_eq_ok_iff.mpr ⟨first', rest', g₀, h₀, rfl, hkind' ▸ hkind, hinputs' ▸ hinputs,
        hname ▸ houtput ▸ hadd, (alike_addLayers hw hrest g₀).eq_ok hfold, ?_⟩
      intro v hv
      obtain ⟨w, hmem, hwv⟩ : ∃ w ∈ weights, w.moved 0 = v.moved 0 :=
        List.mem_map.mp (hperm.mem_iff.mpr (List.mem_map_of_mem hv))
      have htarget : w.target = v.target := by
        show (w.moved 0).target = (v.moved 0).target
        rw [hwv]
      exact isUsed_moved hw hrest htarget ▸ hused w hmem

/-! ## Rearranged texts -/

/-- What stands on the lines of a text, without blanks and comments. -/
def contents (text : String) : List (List Char) := (lines text.toList).map content

/-- The first character behind the first word of a line, which tells what the line states. -/
def mark? (cs : List Char) : Option Char :=
  match word cs with
  | .ok (_, rest) => (trimStart rest).head?
  | .error _ => none

/-- The line is there to declare a layer. -/
def isLayerLine (cs : List Char) : Bool := mark? cs == some '='

/-- The line is there to give a weight. -/
def isWeightLine (cs : List Char) : Bool := mark? cs == some '['

/-- The second text has the layer lines of the first in their order and its weight lines in
any order.  Beside them it has only lines that are blank or comments. -/
structure Rearranged (text other : String) : Prop where
  layers : (contents text).filter isLayerLine = (contents other).filter isLayerLine
  weights : ((contents text).filter isWeightLine).Perm ((contents other).filter isWeightLine)
  blank : ∀ c ∈ contents other, isLayerLine c = false → isWeightLine c = false → c = []

/-- What is read of a line, at no place. -/
def stated? (cs : List Char) : Option Statement :=
  (statement 0 cs).toOption.bind fun s => s.counted.toOption

def layerIn? (cs : List Char) : Option LayerLine :=
  (declared? (.ok (stated? cs))).map (·.moved 0)

def weightIn? (cs : List Char) : Option WeightLine :=
  (given? (.ok (stated? cs))).map (·.moved 0)

/-- What is stated is read as a statement on any line. -/
theorem statement_of_stated? {cs : List Char} {s : Statement} (h : stated? cs = some s) :
    statement 0 cs = .ok s := by
  obtain ⟨s', hs', hcounted⟩ := Option.bind_eq_some_iff.mp h
  rw [Statement.eq_of_counted (toOption_eq_some.mp hcounted)]
  exact toOption_eq_some.mp hs'

/-- Counting does not depend on the line's number. -/
theorem toOption_counted_moved (s : Statement) (line : Nat) :
    (s.moved line).counted.toOption = s.counted.toOption.map (Statement.moved line) := by
  cases s with
  | layer l => rfl
  | weight w =>
      simp only [Statement.moved, Statement.counted, WeightLine.counted_eq, WeightLine.moved]
      split
      · split <;> rfl
      · rfl

/-- A line is read wherever it stands. -/
theorem toOption_readLine (line : Nat) {raw : List Char} (hraw : content raw ≠ []) :
    (readLine line raw).toOption = (stated? (content raw)).map fun s => some (s.moved line) := by
  rw [readLine, if_neg (by simpa using hraw), statement_moved line 0, stated?]
  cases statement 0 (content raw) with
  | error cause => rfl
  | ok s =>
      have hmoved := toOption_counted_moved s line
      simp only [Except.map, Except.toOption, Option.bind_some]
      simp only [Except.toOption] at hmoved
      cases hs : (s.moved line).counted <;> cases hs' : s.counted <;> simp_all

/-- A view of the lines of a text that does not show their numbers. -/
theorem map_viewed {α : Type} {view : Except Failure (Option Statement) → Option α} {f : α → α}
    {inLine? : List Char → Option α}
    (hview : ∀ line raw, (view (readLine line raw)).map f = inLine? (content raw)) (line : Nat)
    (raws : List (List Char)) :
    (viewed view line raws).map f = (raws.map content).filterMap inLine? := by
  induction raws generalizing line with
  | nil => rfl
  | cons raw raws ih =>
      rw [viewed_cons, List.map_append, ih, List.map_cons, List.filterMap_cons, ← hview line raw]
      cases view (readLine line raw) <;> rfl

/-- A view that a line without a statement does not show, up to the number of the line. -/
theorem map_view_readLine {α : Type} {view : Except Failure (Option Statement) → Option α}
    {f : α → α} (hblank : view (.ok none) = none) (hfault : ∀ e, view (.error e) = none)
    (hmoved : ∀ line s, (view (.ok (some (s.moved line)))).map f = (view (.ok (some s))).map f)
    (line : Nat) (raw : List Char) : (view (readLine line raw)).map f =
      (view (.ok (stated? (content raw)))).map f := by
  by_cases hraw : content raw = []
  · rw [readLine, hraw]
    rfl
  · have hread := toOption_readLine line hraw
    cases hs : stated? (content raw) with
    | none =>
        cases hline : readLine line raw with
        | ok s => simp [hline, hs, Except.toOption] at hread
        | error e => rw [hfault, hblank]
    | some s =>
        rw [hs, Option.map_some, toOption_eq_some] at hread
        rw [hread, hmoved]

/-- Apart from their numbers, layer lines come from the contents. -/
theorem map_layersOf (text : String) :
    (layersOf text).map (·.moved 0) = (contents text).filterMap layerIn? :=
  map_viewed (map_view_readLine rfl (fun _ => rfl) fun _ s => by cases s <;> rfl) 1 _

/-- Apart from their numbers, weight lines come from the contents. -/
theorem map_weightsOf (text : String) :
    (weightsOf text).map (·.moved 0) = (contents text).filterMap weightIn? :=
  map_viewed (map_view_readLine rfl (fun _ => rfl) fun _ s => by cases s <;> rfl) 1 _

/-- Nothing is wrong with a line exactly when it is blank or states something. -/
theorem fault?_readLine (line : Nat) (raw : List Char) : fault? (readLine line raw) = none ↔
    content raw = [] ∨ ∃ s, stated? (content raw) = some s := by
  by_cases hraw : content raw = []
  · simp [readLine, hraw, fault?]
  · have hread := toOption_readLine line hraw
    cases hline : readLine line raw <;> cases hs : stated? (content raw) <;>
      simp_all [fault?, Except.toOption]

/-- A text has no fault exactly if each line is empty or states something. -/
theorem faultsOf_eq_nil_iff {text : String} :
    faultsOf text = [] ↔ ∀ c ∈ contents text, c = [] ∨ ∃ s, stated? c = some s := by
  have hviewed (line : Nat) (raws : List (List Char)) : viewed fault? line raws = [] ↔
      ∀ c ∈ raws.map content, c = [] ∨ ∃ s, stated? c = some s := by
    induction raws generalizing line with
    | nil => simp [viewed]
    | cons raw raws ih =>
        rw [viewed_cons, List.append_eq_nil_iff, Option.toList_eq_nil_iff, fault?_readLine, ih,
          List.map_cons, List.forall_mem_cons]
  exact hviewed 1 _

/-- Only a layer line states a layer. -/
theorem isLayerLine_of_statement {line : Nat} {cs : List Char} {l : LayerLine}
    (h : statement line cs = .ok (.layer l)) : isLayerLine cs = true := by
  obtain ⟨⟨head, rest⟩, hword, h⟩ := bind_eq_ok.mp h
  dsimp only at h
  split at h
  · next hmark => simp [isLayerLine, mark?, hword, hmark]
  · obtain ⟨_, _, h⟩ := bind_eq_ok.mp h
    cases h
  · cases h

/-- Only a weight line states a weight. -/
theorem isWeightLine_of_statement {line : Nat} {cs : List Char} {w : WeightLine}
    (h : statement line cs = .ok (.weight w)) : isWeightLine cs = true := by
  obtain ⟨⟨head, rest⟩, hword, h⟩ := bind_eq_ok.mp h
  dsimp only at h
  split at h
  · obtain ⟨_, _, h⟩ := bind_eq_ok.mp h
    cases h
  · next hmark => simp [isWeightLine, mark?, hword, hmark]
  · cases h

/-- What no other line shows is found on the marked lines. -/
theorem filterMap_marked {α : Type} {marked : List Char → Bool} {inLine? : List Char → Option α}
    (h : ∀ c, marked c = false → inLine? c = none) (cs : List (List Char)) :
    (cs.filter marked).filterMap inLine? = cs.filterMap inLine? := by
  rw [List.filterMap_filter]
  refine List.filterMap_congr fun c _ => ?_
  split
  · rfl
  · next hother => rw [h c (by simpa using hother)]

theorem layerIn?_eq_none (c : List Char) (h : isLayerLine c = false) : layerIn? c = none := by
  rw [layerIn?]
  cases hs : stated? c with
  | none => rfl
  | some s =>
      cases s with
      | layer l => simp [isLayerLine_of_statement (statement_of_stated? hs)] at h
      | weight w => rfl

theorem weightIn?_eq_none (c : List Char) (h : isWeightLine c = false) : weightIn? c = none := by
  rw [weightIn?]
  cases hs : stated? c with
  | none => rfl
  | some s =>
      cases s with
      | layer l => rfl
      | weight w => simp [isWeightLine_of_statement (statement_of_stated? hs)] at h

namespace Rearranged

variable {text other : String} (hr : Rearranged text other)

include hr

theorem map_layersOf : (layersOf text).map (·.moved 0) = (layersOf other).map (·.moved 0) := by
  have hmarked := filterMap_marked layerIn?_eq_none
  rw [Model.map_layersOf, Model.map_layersOf, ← hmarked, hr.layers, hmarked]

/-- A rearranged text has the same weight lines in some order. -/
theorem perm_weightsOf :
    ((weightsOf text).map (·.moved 0)).Perm ((weightsOf other).map (·.moved 0)) := by
  have hmarked := filterMap_marked weightIn?_eq_none
  rw [map_weightsOf, map_weightsOf, ← hmarked, ← hmarked (contents other)]
  exact hr.weights.filterMap weightIn?

/-- No weight is given twice in one if none is in the other. -/
theorem nodup_target (hnodup : ((weightsOf text).map WeightLine.target).Nodup) :
    ((weightsOf other).map WeightLine.target).Nodup := by
  have htargets (ws : List WeightLine) :
      ws.map WeightLine.target = (ws.map (·.moved 0)).map WeightLine.target := by
    rw [List.map_map]
    rfl
  rw [htargets] at hnodup ⊢
  exact (hr.perm_weightsOf.map _).nodup_iff.mp hnodup

/-- Every line of the second text is blank or a line of the first. -/
theorem mem_contents {c : List Char} (hc : c ∈ contents other) : c = [] ∨ c ∈ contents text := by
  by_cases hlayer : isLayerLine c = true
  · have hmem : c ∈ (contents text).filter isLayerLine :=
      hr.layers ▸ List.mem_filter.mpr ⟨hc, hlayer⟩
    exact .inr (List.mem_filter.mp hmem).1
  · by_cases hweight : isWeightLine c = true
    · have hmem := hr.weights.mem_iff.mpr (List.mem_filter.mpr ⟨hc, hweight⟩)
      exact .inr (List.mem_filter.mp hmem).1
    · exact .inl (hr.blank c hc (by simpa using hlayer) (by simpa using hweight))

/-- One has no fault if the other has none. -/
theorem faultsOf_eq_nil (hfaults : faultsOf text = []) : faultsOf other = [] := by
  rw [faultsOf_eq_nil_iff] at hfaults ⊢
  intro c hc
  rcases hr.mem_contents hc with hblank | hmem
  · exact .inl hblank
  · exact hfaults c hmem

end Rearranged

/-- Weights may stand anywhere.  A text that can be read is read as the same graph when its
weight lines are given in another order and at other places between its layer lines, with any
blank lines and comments. -/
theorem parse_rearranged {text other : String} {g : Graph} (hr : Rearranged text other)
    (h : parse text = .ok g) : parse other = .ok g := by
  obtain ⟨hfaults, hnodup, hbuild⟩ := parse_eq_ok_iff.mp h
  exact parse_eq_ok_iff.mpr ⟨hr.faultsOf_eq_nil hfaults, hr.nodup_target hnodup,
    build_moved hr.map_layersOf hr.perm_weightsOf hnodup hbuild⟩

/-- A layer behind its weights. -/
def weightsFirst : String :=
  "d.bias [2] = 1 -2
  d.kernel [2, 1] = 0.5 3
  x = input() -> [1, 1]
  d = dense(x) -> [1, 2]"

/-- The same layer between them, with a blank line and comments. -/
def weightsAround : String :=
  "d.kernel [2, 1] = 0.5 3

  x = input() -> [1, 1]
  ; the only layer
  d = dense(x) -> [1, 2]
  d.bias [2] = 1 -2 ; last"

def weighted : Graph where
  slots := [some ⟨.source "x" [1, 1], none, [], [1]⟩,
    some ⟨⟨"d", [[1, 1]], [[1, 2]], .float32, .dense ⟨2, .linear, ⟨[2, 1], .f32 [0.5, 3]⟩,
      some ⟨[2], .f32 [1, -2]⟩⟩⟩, none, [0], []⟩]
  order := [0, 1]

theorem contents_of_toList {text : String} {cs : List Char} (hcs : text.toList = cs) :
    contents text = (lines cs).map content := by
  rw [contents, hcs]

theorem rearranged_weightsAround : Rearranged weightsFirst weightsAround := by
  have hfirst : contents weightsFirst = _ := contents_of_toList String.toList_ofList
  have haround : contents weightsAround = _ := contents_of_toList String.toList_ofList
  constructor
  · rw [hfirst, haround]
    decide +kernel
  · rw [hfirst, haround]
    decide +kernel
  · rw [haround]
    decide +kernel

/-- Weights given before the layers or around them make the same graph. -/
theorem parse_weightsAround :
    Rearranged weightsFirst weightsAround ∧ parse weightsFirst = .ok weighted ∧
      parse weightsAround = .ok weighted := by
  have hfirst : parse weightsFirst = .ok weighted :=
    parse_of_toList String.toList_ofList (by decide +kernel)
  exact ⟨rearranged_weightsAround, hfirst, parse_rearranged rearranged_weightsAround hfirst⟩

end Model

end NeuralC
