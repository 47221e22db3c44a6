import NeuralC.Proofs.Compile.Paths

/-!
# NeuralC.Proofs.Compile.Extents

The arrays of weights and the functions that read them.  The extents that the
function of a layer declares are constants of its file, computed from the
parameters of the layer and the shape of its input; the arrays have the shapes of
the weights.  Nothing forces the two to agree: they do exactly when the layer
`Matches`, which is a condition on its own parameters, weights and input shape.
-/

namespace NeuralC

/-! ## Layers that match -/

/-- How a convolution shares out filters and input channels among groups. -/
structure Grouping where
  filters : Nat
  groups : Nat
  channels : Nat
  groups_pos : 0 < groups

namespace Grouping

/-- Every group has a filter, and the last filter reads channels that the input has. -/
def Fits (x : Grouping) : Prop :=
  x.groups ≤ x.filters ∧ (x.channels < x.groups ∨
    ((x.filters - 1) / (x.filters / x.groups) + 1) * (x.channels / x.groups) ≤ x.channels)

/-- The last channel of the last group is the greatest that is read. -/
theorem forall_channel_lt_iff {filters q p channels : Nat} (hfilters : 0 < filters) :
    (∀ k < filters, ∀ z < p, z + k / q * p < channels) ↔
      p = 0 ∨ ((filters - 1) / q + 1) * p ≤ channels := by
  constructor
  · intro hall
    by_cases hp : p = 0
    · exact .inl hp
    · have hlast := hall (filters - 1) (by omega) (p - 1) (by omega)
      refine .inr ?_
      rw [Nat.succ_mul]
      omega
  · rintro (hp | hlast) k hk z hz
    · omega
    · have hgroup : k / q ≤ (filters - 1) / q := Nat.div_le_div_right (by omega)
      calc z + k / q * p < (k / q + 1) * p := by
            rw [Nat.succ_mul]
            omega
        _ ≤ ((filters - 1) / q + 1) * p := Nat.mul_le_mul_right p (by omega)
        _ ≤ channels := hlast

/-- A grouping fits exactly if every channel that a filter reads is there. -/
theorem fits_iff {x : Grouping} :
    x.Fits ↔ x.filters / x.groups ≠ 0 ∧
      ∀ k < x.filters, ∀ z < x.channels / x.groups,
        z + k / (x.filters / x.groups) * (x.channels / x.groups) < x.channels := by
  have hgroups := x.groups_pos
  have hzero : ∀ a, a / x.groups = 0 ↔ a < x.groups := fun a => by
    rw [Nat.div_eq_zero_iff]
    omega
  rw [Fits, Ne, hzero, Nat.not_lt, ← hzero x.channels]
  refine and_congr_right fun hle => (forall_channel_lt_iff ?_).symm
  omega

/-- Groups of equal numbers of filters share out any channels. -/
theorem fits_of_dvd {x : Grouping} (hfilters : 0 < x.filters) (h : x.groups ∣ x.filters) :
    x.Fits := by
  have hgroups := x.groups_pos
  refine ⟨Nat.le_of_dvd hfilters h, .inr ?_⟩
  have hlast : (x.filters - 1) / (x.filters / x.groups) + 1 = x.groups := by
    obtain ⟨q, hq⟩ := h
    rw [hq] at hfilters ⊢
    have hq : 0 < q := Nat.pos_of_mul_pos_left hfilters
    obtain ⟨m, hm⟩ : ∃ m, x.groups = m + 1 := Nat.exists_eq_succ_of_ne_zero hgroups.ne'
    -- the last filter is the last of group `m`
    rw [Nat.mul_div_cancel_left q hgroups, hm, Nat.succ_mul,
      show m * q + q - 1 = q - 1 + q * m by rw [Nat.mul_comm]; omega,
      Nat.add_mul_div_left _ _ hq, Nat.div_eq_of_lt (by omega), Nat.zero_add]
  rw [hlast]
  exact Nat.mul_div_le x.channels x.groups

end Grouping

namespace Layer

/-- The extents of the array of a weight that the parameters and the input of a layer ask for. -/
def extentsOf (l : Layer) : Role → List Nat
  | .kernel => match l.kind with
    | .dense d => [d.units, l.inputShape.getD 1 0]
    | .conv1D c => [c.filters, c.kernelSize.getD 0 1, l.inputShape.getD 2 0 / max c.groups 1]
    | .conv2D c => [c.filters, c.kernelSize.getD 0 1, c.kernelSize.getD 1 1,
        l.inputShape.getD 3 0 / max c.groups 1]
    | _ => []
  | .bias => match l.kind with
    | .dense d => [d.units]
    | .conv1D c | .conv2D c => [c.filters]
    | _ => []

def grouping? (l : Layer) : Option Grouping :=
  match l.kind with
  | .conv1D c => some ⟨c.filters, max c.groups 1, l.inputShape.getD 2 0, Nat.le_max_right _ _⟩
  | .conv2D c => some ⟨c.filters, max c.groups 1, l.inputShape.getD 3 0, Nat.le_max_right _ _⟩
  | _ => none

/-- The weights of a layer match its parameters and the shape of its input. -/
structure Matches (l : Layer) : Prop where
  shape_eq : ∀ r ∈ l.weights, r.2.shape = l.extentsOf r.1
  grouping : ∀ x ∈ l.grouping?, x.Fits

/-- Whether the layer multiplies its input with a kernel that it owns. -/
def isProduct (l : Layer) : Bool :=
  match l.kind with
  | .dense _ | .conv1D _ | .conv2D _ => true
  | _ => false

theorem isInput_of_isProduct {l : Layer} (h : l.isProduct = true) : l.isInput = false := by
  rw [isProduct] at h
  rw [isInput]
  cases hkind : l.kind with
  | input => simp [hkind] at h
  | _ => rfl

end Layer

namespace C

/-! ## Constants of a file -/

namespace LayerFile

/-- The number that is written for a constant. -/
def whole? (f : LayerFile) (name : String) : Option Nat :=
  match f.constants.find? (·.name = name) with
  | some ⟨_, .whole n⟩ => some n
  | _ => none

/-- The number that a constant stands for; a quotient needs a divisor other than zero. -/
def value? (f : LayerFile) (name : String) : Option Nat :=
  match f.constants.find? (·.name = name) with
  | some ⟨_, .whole n⟩ => some n
  | some ⟨_, .quotient dividend divisor⟩ =>
    (f.whole? dividend).bind fun a => (f.whole? divisor).bind fun b =>
      if b = 0 then none else some (a / b)
  | _ => none

def extent? (f : LayerFile) : Extent → Option Nat
  | .whole n => some n
  | .named constant => f.value? constant

/-- The extents that the function of a layer declares for an array. -/
def declared? (f : LayerFile) (name : String) : Option (List Nat) :=
  (f.parameters.find? (·.name = name)).bind fun p => p.extents.mapM f.extent?

/-- The channel of the input that stands under the element `z` of filter `k` (`groupChannel`); there
is none when the filters of a group cannot be counted. -/
def channel? (f : LayerFile) (k z : Nat) : Option Nat :=
  (f.value? "FILTERS_PER_GROUP").bind fun filters =>
    (f.value? "CHANNELS_PER_GROUP").bind fun channels =>
      if filters = 0 then none else some (z + k / filters * channels)

/-- Every product is of an element of the kernel and a channel that the input has. -/
def ReadsInside (f : LayerFile) : Prop :=
  f.value? "FILTERS_PER_GROUP" ≠ some 0 ∧
    ∀ filters channels group, f.value? "CONV_FILTERS" = some filters →
      f.value? "INPUT_CHANNELS" = some channels → f.value? "CHANNELS_PER_GROUP" = some group →
      ∀ k < filters, ∀ z < group, ∃ i < channels, f.channel? k z = some i

/-- The arrays of the layer of some name fit its function: they have the declared extents, and
what is multiplied with their elements is there. -/
structure Fits (f : LayerFile) (name : String) (arrays : List CArray) : Prop where
  extents : ∀ role, ∀ a ∈ arrays, a.name = CArray.nameOf name role →
    f.declared? role.name = some a.shape
  inside : f.ReadsInside

end LayerFile

/-! ## Files of layers with weights -/

theorem inputOfRank_eq_ok {l : BoundLayer} {rank : Nat} {shape : Shape}
    (h : l.inputOfRank 0 rank = .ok shape) : l.node.layer.inputShape = shape := by
  obtain ⟨input, hinput, h⟩ := bind_eq_ok.mp h
  obtain rfl : input = shape := by
    split at h
    · injection h
    · contradiction
  rw [BoundLayer.inputShape] at hinput
  split at hinput
  · next hget =>
    injection hinput with hinput
    rw [Layer.inputShape, List.head?_eq_getElem?, hget, hinput]
    rfl
  · contradiction

theorem dimension_eq_ok {shape : Shape} {i n : Nat} (h : dimension shape i = .ok n) :
    shape.getD i 0 = n := by
  rw [dimension] at h
  rw [List.getD_eq_getElem?_getD]
  cases hget : shape[i]? with
  | none =>
      rw [hget] at h
      contradiction
  | some m =>
      rw [hget] at h
      injection h

/-- The declared extents of an array are the numbers that their constants stand for. -/
theorem declared?_of_values {f : LayerFile} {name : String} {constants : List String}
    {values : List Nat}
    (hp : f.parameters.find? (·.name = name) = some (parameter name constants))
    (hv : List.Forall₂ (fun constant value => f.value? constant = some value) constants values) :
    f.declared? name = some values := by
  rw [LayerFile.declared?, hp, Option.bind_some, parameter]
  clear hp
  induction hv with
  | nil => rfl
  | cons hvalue _ ih =>
      rw [List.map_cons, List.mapM_cons, ih, LayerFile.extent?, hvalue]
      rfl

/-- A bias that is there is declared after the other arrays. -/
theorem declared?_bias {f : LayerFile} {front : List Parameter} {bias : Option Tensor}
    {constant : String} {outputs : Nat}
    (hf : f.parameters = front ++ if bias.isSome then [parameter "bias" [constant]] else [])
    (hfront : front.find? (·.name = "bias") = none) (hvalue : f.value? constant = some outputs)
    (hbias : bias.isSome = true) : f.declared? "bias" = some [outputs] := by
  refine declared?_of_values (?_ : _ = some (parameter "bias" [constant])) (.cons hvalue .nil)
  rw [hf, List.find?_append, hfront, if_pos hbias]
  rfl

/-- The constants of a file count filters and channels in groups; that of a fully connected layer
has none. -/
def LayerFile.Counts (f : LayerFile) : Option Grouping → Prop
  | none => f.value? "FILTERS_PER_GROUP" = none ∧ f.value? "CONV_FILTERS" = none
  | some x => f.value? "FILTERS_PER_GROUP" = some (x.filters / x.groups) ∧
      f.value? "CHANNELS_PER_GROUP" = some (x.channels / x.groups) ∧
      f.value? "CONV_FILTERS" = some x.filters ∧ f.value? "INPUT_CHANNELS" = some x.channels

/-- What the file of a layer declares for its weights. -/
structure LayerFile.Declares (f : LayerFile) (l : Layer) : Prop where
  declared : ∀ r ∈ l.weights, f.declared? r.1.name = some (l.extentsOf r.1)
  counts : f.Counts l.grouping?

/-- It is enough to look at the kernel, and at the bias where there is one. -/
theorem forall_declared {f : LayerFile} {l : Layer} {kernel : Tensor} {bias : Option Tensor}
    (h : l.weights = (.kernel, kernel) :: (bias.map (Role.bias, ·)).toList)
    (hkernel : f.declared? "kernel" = some (l.extentsOf .kernel))
    (hbias : bias.isSome = true → f.declared? "bias" = some (l.extentsOf .bias)) :
    ∀ r ∈ l.weights, f.declared? r.1.name = some (l.extentsOf r.1) := by
  rw [h, List.forall_mem_cons]
  refine ⟨hkernel, fun r hr => ?_⟩
  obtain ⟨t, ht, rfl⟩ := Option.map_eq_some_iff.mp (Option.mem_toList.mp hr)
  exact hbias (ht ▸ rfl)

/-- The quotient by the number of groups is always defined. -/
theorem groups_quotient (a groups : Nat) :
    (if max groups 1 = 0 then none else some (a / max groups 1)) = some (a / max groups 1) :=
  if_neg (by omega)

section Files

variable {l : BoundLayer} {f : LayerFile}

/-- The file of a dense layer declares what the layer has. -/
theorem declares_dense {d : Dense} (hl : l.node.layer.kind = .dense d) (h : dense l d = .ok f) :
    f.Declares l.node.layer := by
  obtain ⟨input, hinput, h⟩ := bind_eq_ok.mp h
  obtain ⟨constants, hconstants, h⟩ := bind_eq_ok.mp h
  obtain ⟨samples, hsamples, hconstants⟩ := bind_eq_ok.mp hconstants
  obtain ⟨stored, -, h⟩ := bind_eq_ok.mp h
  injection hconstants with hconstants
  injection h with h
  subst h hconstants
  have hweights : l.node.layer.weights = (LayerKind.dense d).weights := congrArg _ hl
  refine ⟨forall_declared hweights ?_ fun hbias => ?_, ?_⟩
  · rw [Layer.extentsOf, hl]
    simp only [inputOfRank_eq_ok hinput, dimension_eq_ok hsamples]
    exact declared?_of_values rfl (.cons rfl (.cons rfl .nil))
  · rw [Layer.extentsOf, hl]
    exact declared?_bias rfl rfl rfl hbias
  · rw [Layer.grouping?, hl]
    exact ⟨rfl, rfl⟩

theorem declares_conv1D {c : Convolution} (hl : l.node.layer.kind = .conv1D c)
    (h : conv1D l c = .ok f) : f.Declares l.node.layer := by
  obtain ⟨input, hinput, h⟩ := bind_eq_ok.mp h
  obtain ⟨output, -, h⟩ := bind_eq_ok.mp h
  obtain ⟨constants, hconstants, h⟩ := bind_eq_ok.mp h
  obtain ⟨channels, hchannels, hconstants⟩ := bind_eq_ok.mp hconstants
  obtain ⟨samples, -, hconstants⟩ := bind_eq_ok.mp hconstants
  obtain ⟨outsamples, -, hconstants⟩ := bind_eq_ok.mp hconstants
  obtain ⟨stored, -, h⟩ := bind_eq_ok.mp h
  injection hconstants with hconstants
  injection h with h
  subst h hconstants
  have hweights : l.node.layer.weights = (LayerKind.conv1D c).weights := congrArg _ hl
  have hquotient := groups_quotient channels c.groups
  refine ⟨forall_declared hweights ?_ fun hbias => ?_, ?_⟩
  · rw [Layer.extentsOf, hl]
    simp only [inputOfRank_eq_ok hinput, dimension_eq_ok hchannels]
    exact declared?_of_values rfl (.cons rfl (.cons rfl (.cons hquotient .nil)))
  · rw [Layer.extentsOf, hl]
    exact declared?_bias rfl rfl rfl hbias
  · rw [Layer.grouping?, hl]
    simp only [inputOfRank_eq_ok hinput, dimension_eq_ok hchannels]
    exact ⟨groups_quotient c.filters c.groups, hquotient, rfl, rfl⟩

theorem declares_conv2D {c : Convolution} (hl : l.node.layer.kind = .conv2D c)
    (h : conv2D l c = .ok f) : f.Declares l.node.layer := by
  obtain ⟨input, hinput, h⟩ := bind_eq_ok.mp h
  obtain ⟨output, -, h⟩ := bind_eq_ok.mp h
  obtain ⟨constants, hconstants, h⟩ := bind_eq_ok.mp h
  obtain ⟨channels, hchannels, hconstants⟩ := bind_eq_ok.mp hconstants
  obtain ⟨height, -, hconstants⟩ := bind_eq_ok.mp hconstants
  obtain ⟨width, -, hconstants⟩ := bind_eq_ok.mp hconstants
  obtain ⟨outheight, -, hconstants⟩ := bind_eq_ok.mp hconstants
  obtain ⟨outwidth, -, hconstants⟩ := bind_eq_ok.mp hconstants
  obtain ⟨stored, -, h⟩ := bind_eq_ok.mp h
  injection hconstants with hconstants
  injection h with h
  subst h hconstants
  have hweights : l.node.layer.weights = (LayerKind.conv2D c).weights := congrArg _ hl
  have hquotient := groups_quotient channels c.groups
  refine ⟨forall_declared hweights ?_ fun hbias => ?_, ?_⟩
  · rw [Layer.extentsOf, hl]
    simp only [inputOfRank_eq_ok hinput, dimension_eq_ok hchannels]
    exact declared?_of_values rfl (.cons rfl (.cons rfl (.cons rfl (.cons hquotient .nil))))
  · rw [Layer.extentsOf, hl]
    exact declared?_bias rfl rfl rfl hbias
  · rw [Layer.grouping?, hl]
    simp only [inputOfRank_eq_ok hinput, dimension_eq_ok hchannels]
    exact ⟨groups_quotient c.filters c.groups, hquotient, rfl, rfl⟩

end Files

/-! ## Arrays -/

/-- Arrays of one layer with different roles have different names. -/
theorem nameOf_inj {layer : String} {role role' : Role}
    (h : CArray.nameOf layer role = CArray.nameOf layer role') : role = role' := by
  have hname : role.name = role'.name := (String.append_right_inj _).mp h
  cases role <;> cases role' <;> first | rfl | contradiction

theorem ofTensor_eq_ok {layer : String} {role : Role} {t : Tensor} {a : CArray}
    (h : CArray.ofTensor layer role t = .ok a) :
    a.name = CArray.nameOf layer role ∧ a.shape = t.shape := by
  obtain ⟨text, -, h⟩ := bind_eq_ok.mp h
  injection h with h
  rw [← h]
  exact ⟨rfl, rfl⟩

/-- There is one array for every weight, of its shape. -/
theorem map_shape_of_weightArrays {l : Layer} {arrays : List CArray}
    (h : weightArrays l = .ok arrays) :
    arrays.map (fun a => (a.name, a.shape)) =
      l.weights.map fun r => (CArray.nameOf l.name r.1, r.2.shape) := by
  rw [weightArrays, mapM_eq_ok] at h
  generalize l.weights = weights at h ⊢
  induction h with
  | nil => rfl
  | cons hr _ ih =>
      obtain ⟨hname, hshape⟩ := ofTensor_eq_ok hr
      rw [List.map_cons, List.map_cons, ih, hname, hshape]

/-- What holds of the arrays holds of the weights, role by role. -/
theorem forall_arrays_iff {l : Layer} {arrays : List CArray} (h : weightArrays l = .ok arrays)
    {P : Role → Shape → Prop} :
    (∀ role, ∀ a ∈ arrays, a.name = CArray.nameOf l.name role → P role a.shape) ↔
      ∀ r ∈ l.weights, P r.1 r.2.shape := by
  have hmap := map_shape_of_weightArrays h
  constructor
  · intro hall r hr
    have hmem := List.mem_map_of_mem (f := fun r => (CArray.nameOf l.name r.1, r.2.shape)) hr
    rw [← hmap] at hmem
    obtain ⟨a, ha, heq⟩ := List.mem_map.mp hmem
    obtain ⟨hname, hshape⟩ := Prod.mk.inj heq
    exact hshape ▸ hall r.1 a ha hname
  · intro hall role a ha hname
    have hmem := List.mem_map_of_mem (f := fun a : CArray => (a.name, a.shape)) ha
    rw [hmap] at hmem
    obtain ⟨r, hr, heq⟩ := List.mem_map.mp hmem
    obtain ⟨hname', hshape⟩ := Prod.mk.inj heq
    obtain rfl := nameOf_inj (hname'.trans hname)
    exact hshape ▸ hall r hr

/-- The loops of a file stay inside the input exactly if its grouping fits. -/
theorem LayerFile.Counts.readsInside_iff {f : LayerFile} {grouping : Option Grouping}
    (hf : f.Counts grouping) : f.ReadsInside ↔ ∀ x ∈ grouping, x.Fits := by
  cases grouping with
  | none =>
      obtain ⟨hgroupFilters, hfilters⟩ := hf
      simp [ReadsInside, hgroupFilters, hfilters]
  | some x =>
      obtain ⟨hgroupFilters, hgroupChannels, hfilters, hchannels⟩ := hf
      have hchannel : ∀ k z, f.channel? k z = if x.filters / x.groups = 0 then none
          else some (z + k / (x.filters / x.groups) * (x.channels / x.groups)) := by
        intro k z
        rw [channel?, hgroupFilters, hgroupChannels]
        rfl
      simp only [Option.mem_some_iff, forall_eq', Grouping.fits_iff]
      rw [ReadsInside, hgroupFilters, hgroupChannels, hfilters, hchannels, Ne, Option.some.injEq]
      refine and_congr_right fun hgroups => ?_
      simp only [hchannel, if_neg hgroups, Option.some.injEq]
      constructor
      · intro hall k hk z hz
        obtain ⟨i, hi, rfl⟩ := hall _ _ _ rfl rfl rfl k hk z hz
        exact hi
      · rintro hall _ _ _ rfl rfl rfl k hk z hz
        exact ⟨_, hall k hk z hz, rfl⟩

/-- The arrays fit the function exactly when the weights match. -/
theorem LayerFile.Declares.fits_iff {f : LayerFile} {l : Layer} {arrays : List CArray}
    (hf : f.Declares l) (harrays : weightArrays l = .ok arrays) :
    f.Fits l.name arrays ↔ l.Matches := by
  have hextents := forall_arrays_iff harrays
    (P := fun role shape => f.declared? role.name = some shape)
  have hshapes : (∀ r ∈ l.weights, f.declared? r.1.name = some r.2.shape) ↔
      ∀ r ∈ l.weights, r.2.shape = l.extentsOf r.1 :=
    forall₂_congr fun r hr => by rw [hf.declared r hr, Option.some.injEq, eq_comm]
  have hinside := hf.counts.readsInside_iff
  exact ⟨fun h => ⟨hshapes.mp (hextents.mp h.extents), hinside.mp h.inside⟩,
    fun h => ⟨hextents.mpr (hshapes.mpr h.shape_eq), hinside.mpr h.grouping⟩⟩

end C

namespace Emit

open NeuralC.C

/-- A layer is written out by its function, printed from `f`, and its arrays. -/
structure Written (as : List Artifact) (l : BoundLayer) (f : LayerFile) (arrays : List CArray) :
    Prop where
  file_eq : layerFile l = .ok f
  arrays_eq : weightArrays l.node.layer = .ok arrays
  source_mem : ⟨Slot.source.path l.name, render (f.code l)⟩ ∈ as
  weights_mem : l.node.layer.hasWeights = true →
    ⟨Slot.weights.path l.name, render (layerWeights l arrays)⟩ ∈ as

/-- Every computed layer has its file and its weights among the artifacts. -/
theorem Emitted.exists_written {s : Scope} {as leading trailing : List Artifact}
    {layers : List (List Artifact)} {h : Handle} {n : Node}
    (he : Emitted s as leading layers trailing) (hh : h ∈ s.graph.order)
    (hn : s.graph.get? h = some n) (hinput : n.layer.isInput = false) :
    ∃ l f arrays, l.node = n ∧ Written as l f arrays := by
  obtain ⟨family, arrays, harrays, hfiles⟩ := he.exists_files hh hn hinput
  obtain ⟨⟨path, contents⟩, hsource, hpath, hrendered⟩ :=
    hfiles (Slot.source.path n.name, .layerSource family)
      (List.mem_append_left _ (List.mem_cons_of_mem _ List.mem_cons_self))
  obtain ⟨code, hcode, rfl⟩ := engine_eq_ok.mp hrendered
  obtain ⟨l, hl, hfile⟩ := bind_eq_ok.mp hcode
  obtain ⟨f, hf, hfile⟩ := bind_eq_ok.mp hfile
  injection hfile with hfile
  obtain rfl := node_of_bind hl rfl hn
  subst hfile hpath
  refine ⟨l, f, arrays, rfl, hf, harrays, hsource, fun hweights => ?_⟩
  obtain ⟨⟨path, contents⟩, hmem, hpath, hrendered⟩ :=
    hfiles (Slot.weights.path l.name, .layerWeights family) (List.mem_append_right _ (by
      rw [if_pos hweights]
      exact List.mem_singleton_self _))
  obtain ⟨code, hcode, rfl⟩ := engine_eq_ok.mp hrendered
  obtain ⟨l', hl', hfile⟩ := bind_eq_ok.mp hcode
  injection hfile with hfile
  -- each template is bound on its own, to the same node
  have hname : l'.name = l.name := congrArg Node.name (node_of_bind hl' rfl hn)
  subst hfile hpath
  rwa [layerWeights, hname] at hmem

end Emit

section Program

open NeuralC.C

variable {w v : Workspace} {c : Compilation}

/-- The weights of a layer that is left have the shapes that they were given. -/
theorem Compiled.weightShapes_eq (hc : Compiled w c v) {h : Handle} {n : Node}
    (hn : v.graph.get? h = some n) :
    ∃ n₀, w.graph.get? h = some n₀ ∧ n.layer.kind.weightShapes = n₀.layer.kind.weightShapes := by
  obtain ⟨v₁, v₂, ha, ho, hrecast⟩ := hc.optimized
  obtain ⟨n₂, hn₂, houtline⟩ := hrecast.exists_get? hn
  obtain ⟨⟨n₁, hn₁, hkeeps⟩, -⟩ := Simplify.inherits_of_optimize ha.framed ho h n₂ hn₂
  have hlayer := ha.layer_eq h
  rw [hn₁] at hlayer
  obtain ⟨n₀, hn₀, heq⟩ := Option.map_eq_some_iff.mp hlayer.symm
  refine ⟨n₀, hn₀, ?_⟩
  calc n.layer.kind.weightShapes = n₂.layer.kind.weightShapes :=
        LayerKind.weightShapes_congr (congrArg (·.layer.kind) houtline)
    _ = n₁.layer.kind.weightShapes :=
        congrArg (List.map fun r : Role × Tensor => (r.1, r.2.shape)) hkeeps.weights_eq
    _ = n₀.layer.kind.weightShapes := by rw [heq]

/-- A layer with a kernel is written out by a function that declares what the layer asks for. -/
theorem Compiled.exists_declares (hc : Compiled w c v) {h : Handle} {n : Node}
    (hn : v.graph.get? h = some n) (hk : n.layer.isProduct = true) :
    ∃ l f arrays, l.node = n ∧ Emit.Written c.bundle.artifacts l f arrays ∧
      f.Declares n.layer := by
  obtain ⟨leading, layers, trailing, he⟩ := hc.emitted
  obtain ⟨l, f, arrays, rfl, hwritten⟩ := he.exists_written (hc.prepared.mem_of_get? hn) hn
    (Layer.isInput_of_isProduct hk)
  refine ⟨l, f, arrays, rfl, hwritten, ?_⟩
  have hf := hwritten.file_eq
  rw [layerFile] at hf
  rw [Layer.isProduct] at hk
  cases hkind : l.node.layer.kind with
  | dense d => exact declares_dense hkind (by rwa [hkind] at hf)
  | conv1D c => exact declares_conv1D hkind (by rwa [hkind] at hf)
  | conv2D c => exact declares_conv2D hkind (by rwa [hkind] at hf)
  | _ => simp [hkind] at hk

end Program

/-- Every layer with a kernel is written out by a function and arrays of the shapes that the text
gives its weights.  The function declares what the parameters of the layer and its input ask for,
and the arrays fit it exactly when the layer matches: no stage compares the three. -/
theorem emitted_arrays_fit_iff {text : String} {g : Graph} (hp : Model.parse text = .ok g)
    {format : NumberFormat} {table : Option Calibration.Table} {session : Session}
    {c : Compilation} {w : Workspace} (hc : compile format table ⟨g, session⟩ = .ok c w)
    {h : Handle} {n : Node} (hn : w.graph.get? h = some n) (hk : n.layer.isProduct = true) :
    (∃ n₀, g.get? h = some n₀ ∧ n.layer.kind.weightShapes = n₀.layer.kind.weightShapes) ∧
      ∃ l f arrays, l.node = n ∧ Emit.Written c.bundle.artifacts l f arrays ∧
        (∀ r ∈ n.layer.weights, f.declared? r.1.name = some (n.layer.extentsOf r.1)) ∧
        (f.Fits n.name arrays ↔ n.layer.Matches) := by
  have hcompiled := compiled_of_parse hp hc
  obtain ⟨l, f, arrays, rfl, hwritten, hdeclares⟩ := hcompiled.exists_declares hn hk
  exact ⟨hcompiled.weightShapes_eq hn, l, f, arrays, rfl, hwritten, hdeclares.declared,
    hdeclares.fits_iff hwritten.arrays_eq⟩

namespace Emit

/-- A layer that a compilation has left. -/
def layer? (r : EStateM.Result Failure Workspace Compilation) (h : Handle) : Option Layer :=
  match r with
  | .ok _ w => (w.graph.get? h).map Node.layer
  | .error _ _ => none

theorem exists_of_layer? {r : EStateM.Result Failure Workspace Compilation} {h : Handle}
    {l : Layer} (hl : layer? r h = some l) :
    ∃ c w n, r = .ok c w ∧ w.graph.get? h = some n ∧ n.layer = l := by
  cases r with
  | ok c w =>
      obtain ⟨n, hn, rfl⟩ := Option.map_eq_some_iff.mp hl
      exact ⟨c, w, n, rfl, hn, rfl⟩
  | error _ _ => contradiction

/-- Two groups of one filter and one channel each. -/
def groupedText : String :=
  "x = input() -> [1, 1, 2]\ny = conv1d(x) groups=2 -> [1, 1, 2]\ny.kernel [2, 1, 1] = 1 2"

def groupedLayer : Layer where
  name := "y"
  inputShapes := [[1, 1, 2]]
  outputShapes := [[1, 1, 2]]
  outputType := .float32
  kind := .conv1D ⟨2, [1], [1], 2, [(0, 0)], .linear, ⟨[2, 1, 1], .f32 [1, 2]⟩, none⟩

def grouped : Graph where
  slots := [some ⟨.source "x" [1, 1, 2], none, [], [1]⟩, some ⟨groupedLayer, none, [0], []⟩]
  order := [0, 1]

set_option maxRecDepth 2000 in
theorem parse_groupedText : Model.parse groupedText = .ok grouped :=
  Model.parse_of_toList String.toList_ofList (by decide +kernel)

theorem layer?_grouped : layer? (compile .float32 none ⟨grouped, {}⟩) 1 = some groupedLayer := by
  decide +kernel

theorem matches_groupedLayer : groupedLayer.Matches where
  shape_eq := by decide
  grouping := fun x hx => by
    obtain rfl := Option.some.inj hx
    exact Grouping.fits_of_dvd (by decide) (by decide)

end Emit

/-- A convolution in two groups is emitted with arrays that fit its loops. -/
theorem arrays_fit_grouped :
    ∃ c w n, Model.parse Emit.groupedText = .ok Emit.grouped ∧
      compile .float32 none ⟨Emit.grouped, {}⟩ = .ok c w ∧ w.graph.get? 1 = some n ∧
      n.layer.isProduct = true ∧
      ∃ l f arrays, l.node = n ∧ Emit.Written c.bundle.artifacts l f arrays ∧
        f.Fits n.name arrays := by
  obtain ⟨c, w, n, hc, hn, hlayer⟩ := Emit.exists_of_layer? Emit.layer?_grouped
  have hk : n.layer.isProduct = true := by
    rw [hlayer]
    rfl
  obtain ⟨-, l, f, arrays, hl, hwritten, -, hfits⟩ :=
    emitted_arrays_fit_iff Emit.parse_groupedText hc hn hk
  refine ⟨c, w, n, Emit.parse_groupedText, hc, hn, hk, l, f, arrays, hl, hwritten, hfits.mpr ?_⟩
  rw [hlayer]
  exact Emit.matches_groupedLayer

namespace Emit

/-- A kernel with more columns than the input has elements. -/
def wideText : String :=
  "x = input() -> [1, 2]\ny = dense(x) -> [1, 2]\ny.kernel [2, 3] = 1 2 3 4 5 6\n"

def wideLayer : Layer where
  name := "y"
  inputShapes := [[1, 2]]
  outputShapes := [[1, 2]]
  outputType := .float32
  kind := .dense ⟨2, .linear, ⟨[2, 3], .f32 [1, 2, 3, 4, 5, 6]⟩, none⟩

def wide : Graph where
  slots := [some ⟨.source "x" [1, 2], none, [], [1]⟩, some ⟨wideLayer, none, [0], []⟩]
  order := [0, 1]

set_option maxRecDepth 2000 in
theorem parse_wideText : Model.parse wideText = .ok wide :=
  Model.parse_of_toList String.toList_ofList (by decide +kernel)

theorem layer?_wide : layer? (compile .float32 none ⟨wide, {}⟩) 1 = some wideLayer := by
  decide +kernel

end Emit

/-- The array of the kernel has three columns where the function declares two. -/
theorem misfit_wide :
    ∃ c w n, Model.parse Emit.wideText = .ok Emit.wide ∧
      compile .float32 none ⟨Emit.wide, {}⟩ = .ok c w ∧ w.graph.get? 1 = some n ∧
      n.layer.isProduct = true ∧
      ∃ l f arrays, l.node = n ∧ Emit.Written c.bundle.artifacts l f arrays ∧
        f.declared? "kernel" = some [2, 2] ∧ ¬ f.Fits n.name arrays := by
  obtain ⟨c, w, n, hc, hn, hlayer⟩ := Emit.exists_of_layer? Emit.layer?_wide
  have hk : n.layer.isProduct = true := by
    rw [hlayer]
    rfl
  obtain ⟨l, f, arrays, hl, hwritten, hdeclares⟩ :=
    (compiled_of_parse Emit.parse_wideText hc).exists_declares hn hk
  refine ⟨c, w, n, Emit.parse_wideText, hc, hn, hk, l, f, arrays, hl, hwritten, ?_, fun hfits => ?_⟩
  · have hdeclared := hdeclares.declared
    rw [hlayer] at hdeclared
    exact hdeclared _ List.mem_cons_self
  · have hmatches := (hdeclares.fits_iff (hl ▸ hwritten.arrays_eq)).mp hfits
    rw [hlayer] at hmatches
    exact absurd (hmatches.shape_eq _ List.mem_cons_self) (by decide)

end NeuralC
