import NeuralC.Proofs.Model.Build

/-!
# NeuralC.Proofs.Model.Supply

Where the parameters of layers come from.  A `Supply` says which weight lines a
layer has its parameters from, each line with the one parameter that it is for,
and `Supply.Makes` says what the layer then is: kernel and bias are the tensors
of their lines, or are folded from the lines of the running statistics.

Every layer of a description that is read has its supply, and all supplies
together are the weight lines of the description, each used once
(`parse_supplied`).
-/

namespace NeuralC.Model

open NeuralC.Text

/-! ## Supplies -/

/-- The parameters that a weight line can be for. -/
inductive Slot where
  | kernel
  | bias
  | mean
  | variance
  | gamma
  | beta
deriving DecidableEq, Repr

/-- The role under which the weight of a parameter is given. -/
def Slot.role : Slot → String
  | kernel => "kernel"
  | bias => "bias"
  | mean => "moving_mean"
  | variance => "moving_variance"
  | gamma => "gamma"
  | beta => "beta"

/-- Different slots have different roles. -/
theorem Slot.role_injective : Function.Injective Slot.role := by
  intro a b
  cases a <;> cases b <;> decide

/-- The weight lines that a layer has its parameters from. -/
inductive Supply where
  /-- The layer has no parameters. -/
  | none
  /-- A kernel, and a bias where there is one. -/
  | tensors (kernel : WeightLine) (bias : Option WeightLine)
  /-- Running statistics, with factors and offsets where these are given. -/
  | statistics (mean variance : WeightLine) (gamma beta : Option WeightLine)

namespace Supply

/-- The lines, each with the parameter that it is for. -/
def lines : Supply → List (Slot × WeightLine)
  | none => []
  | tensors kernel bias => (.kernel, kernel) :: (bias.map (Slot.bias, ·)).toList
  | statistics mean variance gamma beta => (.mean, mean) :: (.variance, variance) ::
      ((gamma.map (Slot.gamma, ·)).toList ++ (beta.map (Slot.beta, ·)).toList)

/-- No parameter has two lines. -/
theorem nodup_slots (s : Supply) : (s.lines.map Prod.fst).Nodup := by
  cases s with
  | none => exact List.nodup_nil
  | tensors kernel bias => cases bias <;> simp [lines]
  | statistics mean variance gamma beta => cases gamma <;> cases beta <;> simp [lines]

/-- Kernel and bias are the tensors of their lines, and there is a bias exactly when a line
gives one. -/
def Carries (s : Supply) (weights : List WeightLine) (name : String) (kernel : Tensor)
    (bias : Option Tensor) : Prop :=
  ∃ k b, s = .tensors k b ∧ kernel = k.tensor ∧ bias = b.map WeightLine.tensor ∧
    (bias.isSome ↔ (name, "bias") ∈ weights.map WeightLine.target)

/-- Without a line for the kernel, factor and offset are folded from the lines of the running
statistics; factors that are not given are ones and offsets that are not given are zeros. -/
def Folds (s : Supply) (weights : List WeightLine) (l : LayerLine) (b : BatchNorm) : Prop :=
  (l.name, "kernel") ∉ weights.map WeightLine.target ∧
  (l.name, "bias") ∉ weights.map WeightLine.target ∧
  ∃ mean variance gamma beta epsilon, s = .statistics mean variance gamma beta ∧
    (gamma.isSome ↔ (l.name, "gamma") ∈ weights.map WeightLine.target) ∧
    (beta.isSome ↔ (l.name, "beta") ∈ weights.map WeightLine.target) ∧
    l.number "epsilon" float32? 1e-3 = .ok epsilon ∧
    BatchNorm.ofStatistics?
      ((gamma.map (·.values)).getD (List.replicate mean.values.length 1))
      ((beta.map (·.values)).getD (List.replicate mean.values.length 0))
      mean.values variance.values epsilon b.activation = some b

/-- What a layer with the supply is. -/
def Makes (s : Supply) (weights : List WeightLine) (l : LayerLine) : LayerKind → Prop
  | .conv1D c | .conv2D c => s.Carries weights l.name c.kernel c.bias
  | .dense d => s.Carries weights l.name d.kernel d.bias
  | .batchNorm1D b | .batchNorm2D b =>
      s.Carries weights l.name b.kernel (some b.bias) ∨ s.Folds weights l b
  | _ => s = .none

/-- The lines of the supply are the weights that are given for the layer of a name. -/
def CoversLines (s : Supply) (weights : List WeightLine) (name : String) : Prop :=
  ∀ slot w, (slot, w) ∈ s.lines ↔ w ∈ weights ∧ w.target = (name, slot.role)

/-- No line is used twice by one layer. -/
theorem CoversLines.nodup {s : Supply} {weights : List WeightLine} {name : String}
    (hs : s.CoversLines weights name) : (s.lines.map Prod.snd).Nodup := by
  have htargets : (s.lines.map Prod.snd).map WeightLine.target =
      (s.lines.map Prod.fst).map fun slot => (name, slot.role) := by
    rw [List.map_map, List.map_map]
    exact List.map_congr_left fun p hp => ((hs p.1 p.2).mp hp).2
  refine List.Nodup.of_map WeightLine.target ?_
  rw [htargets]
  refine s.nodup_slots.map fun a b hab => Slot.role_injective ?_
  exact (Prod.mk.inj hab).2

end Supply

/-! ## The supply of a layer -/

namespace LayerLine

/-- A required weight is found under its role. -/
theorem require_eq_ok {d : LayerLine} {weights : List WeightLine} {role : String} {w : WeightLine}
    (h : d.require weights role = .ok w) : weight? weights d.name role = some w := by
  rw [require] at h
  split at h
  · next hfound =>
    cases h
    exact hfound
  · cases h

variable {l : LayerLine} {weights : List WeightLine}

/-- Kernel and bias of a convolution are the tensors of their lines. -/
theorem convolution_eq_ok {rank : Nat} {c : Convolution} (h : l.convolution weights rank = .ok c) :
    ∃ kernel, weight? weights l.name "kernel" = some kernel ∧ c.kernel = kernel.tensor ∧
      c.bias = (weight? weights l.name "bias").map (·.tensor) := by
  obtain ⟨_, _, h⟩ := bind_eq_ok.mp h
  obtain ⟨kernel, hkernel, h⟩ := bind_eq_ok.mp h
  iterate 6 obtain ⟨_, _, h⟩ := bind_eq_ok.mp h
  cases h
  exact ⟨kernel, require_eq_ok hkernel, rfl, rfl⟩

/-- Kernel and bias of a fully connected layer are the tensors of their lines. -/
theorem dense_eq_ok {e : Dense} (h : l.dense weights = .ok e) :
    ∃ kernel, weight? weights l.name "kernel" = some kernel ∧ e.kernel = kernel.tensor ∧
      e.bias = (weight? weights l.name "bias").map (·.tensor) := by
  iterate 3 obtain ⟨_, _, h⟩ := bind_eq_ok.mp h
  obtain ⟨kernel, hkernel, h⟩ := bind_eq_ok.mp h
  cases h
  exact ⟨kernel, require_eq_ok hkernel, rfl, rfl⟩

/-- Folding the statistics keeps the activation. -/
theorem activation_of_ofStatistics? {gamma beta mean variance : List Float32} {epsilon : Float32}
    {a : Activation} {b : BatchNorm}
    (h : BatchNorm.ofStatistics? gamma beta mean variance epsilon a = some b) :
    b.activation = a := by
  rw [BatchNorm.ofStatistics?] at h
  split at h
  · cases h
  · cases h
    rfl

theorem isSome_weight?_name {role : String} :
    (weight? weights l.name role).isSome ↔ (l.name, role) ∈ weights.map WeightLine.target := by
  simp [weight?, WeightLine.target]

/-- The roles that a layer uses are those of parameters. -/
theorem roles_eq (l : LayerLine) (weights : List WeightLine) :
    l.roles weights = [] ∨ l.roles weights = [Slot.kernel, .bias].map Slot.role ∨
      l.roles weights = [Slot.mean, .variance, .gamma, .beta].map Slot.role := by
  unfold roles
  split
  case h_4 | h_5 =>
    split
    · exact .inr (.inl rfl)
    · exact .inr (.inr rfl)
  case h_6 => exact .inl rfl
  all_goals exact .inr (.inl rfl)

/-- Every role that a layer takes is that of a slot. -/
theorem exists_slot_of_mem_roles {role : String} (h : role ∈ l.roles weights) :
    ∃ slot : Slot, slot.role = role := by
  have hmap {slots : List Slot} (hmem : role ∈ slots.map Slot.role) :
      ∃ slot : Slot, slot.role = role := by
    obtain ⟨slot, -, hslot⟩ := List.mem_map.mp hmem
    exact ⟨slot, hslot⟩
  rcases l.roles_eq weights with hslots | hslots | hslots <;> rw [hslots] at h
  · contradiction
  · exact hmap h
  · exact hmap h

section Covers

variable (hnodup : (weights.map WeightLine.target).Nodup)
  (hroles : ∀ w ∈ weights, w.layer = l.name → w.role ∈ l.roles weights)

include hnodup hroles

/-- When all weights that are given for a layer have a role that it uses, its supply are the
lines that are found under these roles. -/
theorem coversLines_of_slots {s : Supply} {slots : List Slot}
    (hslots : l.roles weights = slots.map Slot.role)
    (hlines : s.lines = slots.filterMap fun slot =>
      (weight? weights l.name slot.role).map (slot, ·)) : s.CoversLines weights l.name := by
  intro slot w
  rw [hlines, List.mem_filterMap, ← weight?_eq_some_iff hnodup]
  constructor
  · rintro ⟨slot', -, hfound⟩
    obtain ⟨w', hw', heq⟩ := Option.map_eq_some_iff.mp hfound
    obtain ⟨rfl, rfl⟩ := Prod.mk.inj heq
    exact hw'
  · intro hfound
    obtain ⟨hw, htarget⟩ := (weight?_eq_some_iff hnodup).mp hfound
    obtain ⟨hlayer, hrole⟩ := Prod.mk.inj htarget
    have hmem := hroles w hw hlayer
    rw [hslots, hrole, List.mem_map_of_injective Slot.role_injective] at hmem
    exact ⟨slot, hmem, by rw [hfound, Option.map_some]⟩

/-- A layer that takes a kernel and perhaps a bias has them from their lines. -/
theorem exists_supply_of_kernel {kernel : WeightLine}
    (hslots : l.roles weights = [Slot.kernel, .bias].map Slot.role)
    (hkernel : weight? weights l.name "kernel" = some kernel) :
    ∃ s : Supply, s.CoversLines weights l.name ∧ s.Carries weights l.name kernel.tensor
      ((weight? weights l.name "bias").map WeightLine.tensor) := by
  refine ⟨.tensors kernel (weight? weights l.name "bias"),
    coversLines_of_slots hnodup hroles hslots ?_, kernel, _, rfl, rfl, rfl, ?_⟩
  · cases hbias : weight? weights l.name "bias" <;> simp [Supply.lines, Slot.role, hkernel, hbias]
  · rw [Option.isSome_map, isSome_weight?_name]

/-- A layer that uses no role has no parameters. -/
theorem coversLines_none (hnone : l.roles weights = []) :
    Supply.none.CoversLines weights l.name := by
  have hslots : l.roles weights = ([] : List Slot).map Slot.role := hnone
  exact coversLines_of_slots hnodup hroles hslots rfl

/-- A layer that takes running statistics folds them, and nothing else is given for it. -/
theorem exists_supply_of_statistics {mean variance : WeightLine} {epsilon : Float32}
    {a : Activation} {b : BatchNorm}
    (hslots : l.roles weights = [Slot.mean, .variance, .gamma, .beta].map Slot.role)
    (hmean : weight? weights l.name "moving_mean" = some mean)
    (hvariance : weight? weights l.name "moving_variance" = some variance)
    (hepsilon : l.number "epsilon" float32? (Float32.ofScientific 1 true 3) = .ok epsilon)
    (hfold : BatchNorm.ofStatistics?
      (((weight? weights l.name "gamma").map (·.values)).getD
        (mean.values.map fun _ => Float32.ofBits 0x3F800000))
      (((weight? weights l.name "beta").map (·.values)).getD
        (mean.values.map fun _ => Float32.ofBits 0))
      mean.values variance.values epsilon a = some b) :
    ∃ s : Supply, s.CoversLines weights l.name ∧
      (s.Carries weights l.name b.kernel (some b.bias) ∨ s.Folds weights l b) := by
  have hone : Float32.ofBits 0x3F800000 = 1 := by decide +kernel
  have hzero : Float32.ofBits 0 = 0 := by decide +kernel
  have habsent {role : String} (hrole : role ∉ l.roles weights) :
      (l.name, role) ∉ weights.map WeightLine.target := by
    intro htarget
    obtain ⟨w, hw, heq⟩ := List.mem_map.mp htarget
    obtain ⟨hlayer, rfl⟩ := Prod.mk.inj heq
    exact hrole (hroles w hw hlayer)
  rw [List.map_const', List.map_const', hone, hzero, ← activation_of_ofStatistics? hfold] at hfold
  refine ⟨.statistics mean variance (weight? weights l.name "gamma")
    (weight? weights l.name "beta"), coversLines_of_slots hnodup hroles hslots ?_, .inr
    ⟨habsent (by simp [hslots, Slot.role]), habsent (by simp [hslots, Slot.role]), mean, variance,
      _, _, epsilon, rfl, isSome_weight?_name, isSome_weight?_name, hepsilon, hfold⟩⟩
  cases hgamma : weight? weights l.name "gamma" <;>
    cases hbeta : weight? weights l.name "beta" <;>
    simp [Supply.lines, Slot.role, hmean, hvariance, hgamma, hbeta]

/-- A batch normalization has kernel and bias from their lines, or folds them. -/
theorem exists_supply_of_batchNorm {b : BatchNorm}
    (hl : l.kind = "batchnorm1d" ∨ l.kind = "batchnorm2d") (h : l.batchNorm weights = .ok b) :
    ∃ s : Supply, s.CoversLines weights l.name ∧
      (s.Carries weights l.name b.kernel (some b.bias) ∨ s.Folds weights l b) := by
  obtain ⟨_, _, h⟩ := bind_eq_ok.mp h
  obtain ⟨a, _, h⟩ := bind_eq_ok.mp h
  split at h
  · next kernel hkernel =>
    have hslots : l.roles weights = [Slot.kernel, .bias].map Slot.role := by
      rcases hl with hl | hl <;> simp [roles, hl, hkernel, Slot.role]
    split at h
    · cases h
    · obtain ⟨bias, hbias, h⟩ := bind_eq_ok.mp h
      cases h
      obtain ⟨s, hs, hcarries⟩ := exists_supply_of_kernel hnodup hroles hslots hkernel
      rw [require_eq_ok hbias] at hcarries
      exact ⟨s, hs, .inl hcarries⟩
  · next hkernel =>
    have hslots : l.roles weights = [Slot.mean, .variance, .gamma, .beta].map Slot.role := by
      rcases hl with hl | hl <;> simp [roles, hl, hkernel, Slot.role]
    obtain ⟨mean, hmean, h⟩ := bind_eq_ok.mp h
    obtain ⟨variance, hvariance, h⟩ := bind_eq_ok.mp h
    obtain ⟨epsilon, hepsilon, h⟩ := bind_eq_ok.mp h
    split at h
    · next hfold =>
      cases h
      exact exists_supply_of_statistics hnodup hroles hslots (require_eq_ok hmean)
        (require_eq_ok hvariance) hepsilon hfold
    · cases h

/-- Every layer has its supply, and is what that makes of it. -/
theorem exists_supply {kind : LayerKind} (h : l.layerKind weights = .ok kind) :
    ∃ s : Supply, s.CoversLines weights l.name ∧ s.Makes weights l kind := by
  unfold layerKind at h
  split at h
  case h_1 hl | h_2 hl =>
    obtain ⟨c, hc, h⟩ := bind_eq_ok.mp h
    cases h
    obtain ⟨kernel, hkernel, hk, hb⟩ := convolution_eq_ok hc
    obtain ⟨s, hs, hcarries⟩ :=
      exists_supply_of_kernel hnodup hroles (by simp [roles, hl, Slot.role]) hkernel
    rw [← hk, ← hb] at hcarries
    exact ⟨s, hs, hcarries⟩
  case h_3 hl =>
    obtain ⟨e, he, h⟩ := bind_eq_ok.mp h
    cases h
    obtain ⟨kernel, hkernel, hk, hb⟩ := dense_eq_ok he
    obtain ⟨s, hs, hcarries⟩ :=
      exists_supply_of_kernel hnodup hroles (by simp [roles, hl, Slot.role]) hkernel
    rw [← hk, ← hb] at hcarries
    exact ⟨s, hs, hcarries⟩
  case h_8 hl | h_9 hl =>
    obtain ⟨b, hb, h⟩ := bind_eq_ok.mp h
    cases h
    exact exists_supply_of_batchNorm hnodup hroles (by simp [hl]) hb
  case h_23 => cases h
  -- The other kinds own no weights.
  all_goals
    next hl =>
      repeat obtain ⟨_, _, h⟩ := bind_eq_ok.mp h
      cases h
      exact ⟨.none, coversLines_none hnodup hroles (by simp [roles, hl]), rfl⟩

end Covers

end LayerLine

/-! ## The supplies of a description -/

/-- The weights that are given for a layer have roles that it uses, and none are given for the
first layer. -/
theorem role_mem_of_build {d : Declarations} {g : Graph} (h : build d = .ok g) {w : WeightLine}
    (hw : w ∈ d.weights) : ∃ i l, d.layers[i]? = some l ∧ i ≠ 0 ∧ w.layer = l.name ∧
      w.role ∈ l.roles d.weights := by
  obtain ⟨first, rest, -, -, hlayers, -, -, -, -, hused⟩ := build_eq_ok_iff.mp h
  obtain ⟨l, hl, huse⟩ := List.any_eq_true.mp (hused w hw)
  obtain ⟨i, hi⟩ := List.mem_iff_getElem?.mp hl
  obtain ⟨hname, hrole⟩ : l.name = w.layer ∧ w.role ∈ l.roles d.weights := by simpa using huse
  exact ⟨i + 1, l, by rw [hlayers, List.getElem?_cons_succ, hi], by simp, hname.symm, hrole⟩

namespace Built

variable {ls : List LayerLine} {weights : List WeightLine} {g : Graph}

/-- Two declared layers of one name are one. -/
theorem index_inj (hg : Built ls weights g) {i j : Nat} {l m : LayerLine} (hi : ls[i]? = some l)
    (hj : ls[j]? = some m) (hname : l.name = m.name) : i = j := by
  have hlt : i < (ls.map (·.name)).length := by
    rw [List.length_map]
    exact (List.getElem?_eq_some_iff.mp hi).1
  refine (List.getElem?_inj hlt hg.names).mp ?_
  rw [List.getElem?_map, List.getElem?_map, hi, hj, Option.map_some, Option.map_some, hname]

end Built

/-- Every node of a description that is read has its supply. -/
theorem exists_supply_of_parse {text : String} {g : Graph} (h : parse text = .ok g) {i : Handle}
    {l : LayerLine} {n : Node} (hl : (layersOf text)[i]? = some l)
    (hn : Declares (layersOf text) (weightsOf text) i l n) :
    ∃ s : Supply, s.CoversLines (weightsOf text) l.name ∧
      s.Makes (weightsOf text) l n.layer.kind := by
  obtain ⟨-, hnodup, hbuild⟩ := parse_eq_ok_iff.mp h
  obtain ⟨-, hg⟩ := built_of_parse h
  have hown {w : WeightLine} (hw : w ∈ weightsOf text) (hlayer : w.layer = l.name) :
      i ≠ 0 ∧ w.role ∈ l.roles (weightsOf text) := by
    obtain ⟨j, m, hm, hj, hname, hrole⟩ := role_mem_of_build hbuild hw
    have hij : i = j := hg.index_inj hl hm (hlayer.symm.trans hname)
    subst hij
    cases hl.symm.trans hm
    exact ⟨hj, hrole⟩
  by_cases hi : i = 0
  · have hinput : n.layer.kind = .input := by
      have hisInput := (hn.input hi).1
      rw [Layer.isInput] at hisInput
      split at hisInput
      · assumption
      · cases hisInput
    refine ⟨.none, fun slot w => ?_, by rw [hinput]; rfl⟩
    simp only [Supply.lines, List.not_mem_nil, false_iff, not_and]
    exact fun hw htarget => (hown hw (Prod.mk.inj htarget).1).1 hi
  · exact LayerLine.exists_supply hnodup (fun w hw hlayer => (hown hw hlayer).2) (hn.kind hi)

/-- Supplies that cover the lines of every layer use each weight line once. -/
theorem perm_supplies {text : String} {g : Graph} (h : parse text = .ok g)
    {supply : Handle → Supply}
    (hcovers : ∀ i n, g.get? i = some n → (supply i).CoversLines (weightsOf text) n.name) :
    ((g.order.flatMap fun i => (supply i).lines).map Prod.snd).Perm (weightsOf text) := by
  obtain ⟨-, hnodup, hbuild⟩ := parse_eq_ok_iff.mp h
  obtain ⟨-, hg⟩ := built_of_parse h
  have hmem {i : Handle} {n : Node} (hn : g.get? i = some n) {w : WeightLine}
      (hw : w ∈ (supply i).lines.map Prod.snd) : w ∈ weightsOf text ∧ w.layer = n.name := by
    obtain ⟨⟨slot, v⟩, hline, rfl⟩ := List.mem_map.mp hw
    obtain ⟨hv, htarget⟩ := (hcovers i n hn slot v).mp hline
    exact ⟨hv, (Prod.mk.inj htarget).1⟩
  rw [List.map_flatMap]
  refine (List.perm_ext_iff_of_nodup ?_ (List.Nodup.of_map _ hnodup)).mpr fun w => ⟨?_, ?_⟩
  · -- a line has one parameter in its layer, and layers have different names
    refine List.nodup_flatMap.mpr ⟨fun i hi => ?_, ?_⟩
    · obtain ⟨n, hn⟩ := hg.exists_get? hi
      exact (hcovers i n hn).nodup
    · refine hg.nodup.pairwise_of_forall_ne fun i hi j hj hne => ?_
      obtain ⟨n, hn⟩ := hg.exists_get? hi
      obtain ⟨m, hm⟩ := hg.exists_get? hj
      intro w hw hw'
      exact hne (hg.name_inj hn hm ((hmem hn hw).2.symm.trans (hmem hm hw').2))
  · intro hw
    obtain ⟨i, hi, hw⟩ := List.mem_flatMap.mp hw
    obtain ⟨n, hn⟩ := hg.exists_get? hi
    exact (hmem hn hw).1
  · intro hw
    obtain ⟨i, l, hl, -, hlayer, hrole⟩ := role_mem_of_build hbuild hw
    obtain ⟨slot, hslot⟩ := LayerLine.exists_slot_of_mem_roles hrole
    obtain ⟨n, hn, hd⟩ := hg.declares hl
    have htarget : w.target = (n.name, slot.role) := by
      rw [WeightLine.target, hlayer, hd.name, hslot]
    refine List.mem_flatMap.mpr ⟨i, hg.mem_of_get? hn, List.mem_map.mpr ⟨(slot, w), ?_, rfl⟩⟩
    exact (hcovers i n hn slot w).mpr ⟨hw, htarget⟩

/-- No weight line is lost, used twice or changed.  Every layer of a description that is read has
a supply: its lines are the weight lines given for the layer of that name, each under the role of
the one parameter it is for, and they make the layer what it is.  The lines of all supplies
together are the weight lines of the description. -/
theorem parse_supplied {text : String} {g : Graph} (h : parse text = .ok g) :
    ∃ supply : Handle → Supply,
      (∀ i n, g.get? i = some n → ∃ l, (layersOf text)[i]? = some l ∧ l.name = n.name ∧
        (supply i).CoversLines (weightsOf text) n.name ∧
        (supply i).Makes (weightsOf text) l n.layer.kind) ∧
      ((g.order.flatMap fun i => (supply i).lines).map Prod.snd).Perm (weightsOf text) := by
  obtain ⟨-, hg⟩ := built_of_parse h
  have hexists (i : Handle) : ∃ s : Supply, ∀ n, g.get? i = some n →
      ∃ l, (layersOf text)[i]? = some l ∧ l.name = n.name ∧
        s.CoversLines (weightsOf text) n.name ∧ s.Makes (weightsOf text) l n.layer.kind := by
    cases hn : g.get? i with
    | none => exact ⟨.none, by simp⟩
    | some n =>
        obtain ⟨l, hl, hd⟩ := hg.exists_line hn
        obtain ⟨s, hs, hmakes⟩ := exists_supply_of_parse h hl hd
        refine ⟨s, fun m hm => ?_⟩
        cases hm
        exact ⟨l, hl, hd.name.symm, hd.name ▸ hs, hmakes⟩
  choose supply hsupply using hexists
  refine ⟨supply, hsupply, perm_supplies h fun i n hn => ?_⟩
  obtain ⟨l, -, -, hcovers, -⟩ := hsupply i n hn
  exact hcovers

/-- A layer with a dot in its name and no bias, and running statistics without offsets. -/
def normedText : String :=
  "x = input() -> [1, 1]
  a.b = dense(x) -> [1, 1]
  n.gamma [1] = 2
  a.b.kernel [1, 1] = 0.5
  n = batchnorm1d(a.b) epsilon=0 -> [1, 1]
  n.moving_mean [1] = 3
  n.moving_variance [1] = 4"

def normed : Graph where
  slots := [some ⟨.source "x" [1, 1], none, [], [1]⟩,
    some ⟨⟨"a.b", [[1, 1]], [[1, 1]], .float32, .dense ⟨1, .linear, ⟨[1, 1], .f32 [0.5]⟩, none⟩⟩,
      none, [0], [2]⟩,
    some ⟨⟨"n", [[1, 1]], [[1, 1]], .float32, .batchNorm1D ⟨.linear, .vector [1], .vector [-3]⟩⟩,
      none, [1], []⟩]
  order := [0, 1, 2]

set_option maxRecDepth 4000 in
theorem parse_normedText : parse normedText = .ok normed :=
  parse_of_toList String.toList_ofList (by decide +kernel)

/-- A normalization is made from its four weight lines, and no line is left over. -/
theorem parse_supplied_normed :
    parse normedText = .ok normed ∧ ∃ supply : Handle → Supply,
      (∃ l, (layersOf normedText)[2]? = some l ∧ l.name = "n" ∧
        (supply 2).CoversLines (weightsOf normedText) "n" ∧
        (supply 2).Makes (weightsOf normedText) l
          (.batchNorm1D ⟨.linear, .vector [1], .vector [-3]⟩)) ∧
      ((normed.order.flatMap fun i => (supply i).lines).map Prod.snd).Perm
        (weightsOf normedText) := by
  obtain ⟨supply, hmakes, hperm⟩ := parse_supplied parse_normedText
  exact ⟨parse_normedText, supply, hmakes 2 _ rfl, hperm⟩

end NeuralC.Model
