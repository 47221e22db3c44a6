import Mathlib.Data.List.Sort
import NeuralC.Proofs.Evaluate.Exact
import NeuralC.Simplify.Padding

/-!
# NeuralC.Proofs.Evaluate.Padding

Convolutions over padded samples.  `addends` lists, by place and filter, which
weight a convolution multiplies with which input.  A convolution that pads by
itself gives on the samples what another gives on the padded samples when it has
the same addends, those with a padding zero left out: `layer_padded`.

`addends_padded` has that for a convolution without padding of its own that is
declared to read what the padding layer writes, and `addends_retraced_iff` that
nothing less will do for all weights and inputs.
-/

namespace NeuralC.Evaluate

open NeuralC.Simplify

/-! ## Shapes -/

/-- Samples and channels are those of a shape of three dimensions. -/
theorem samplesChannels_eq_ok {l : Layer} {shape : Shape} {samples channels : Nat} :
    samplesChannels l shape = .ok (samples, channels) ↔ ∃ b, shape = [b, samples, channels] := by
  unfold samplesChannels
  split
  · next b s c =>
      constructor
      · intro h
        injection h with h
        injection h with hs hc
        exact ⟨b, by rw [hs, hc]⟩
      · rintro ⟨b', h⟩
        injection h with _ h
        injection h with hs h
        injection h with hc _
        rw [hs, hc]
  · next hne =>
      constructor
      · intro h
        contradiction
      · rintro ⟨b, h⟩
        exact absurd h (hne b samples channels)

/-! ## Padded samples -/

/-- Where an index into padded samples points in the samples themselves; nowhere in
the padding. -/
def unpadded (left samples channels : Nat) (i : Nat) : Option Nat :=
  if left * channels ≤ i ∧ i < (left + samples) * channels then some (i - left * channels)
  else none

/-- What a padding layer has checked and written. -/
theorem zeroPadding_cases {α : Type} {a : Arithmetic α} {l : Layer} {padding : List (Nat × Nat)}
    {xs ys : List α} (hp : zeroPadding a l padding xs = .ok ys) :
    ∃ b samples channels, l.inputShape = [b, samples, channels] ∧
      samples * channels ≤ xs.length ∧
      ys = List.replicate ((padding.head?.getD (0, 0)).1 * channels) a.zero ++
        xs.take (samples * channels) ++
        List.replicate ((padding.head?.getD (0, 0)).2 * channels) a.zero := by
  obtain ⟨⟨samples, channels⟩, hshape, hp⟩ := bind_eq_ok.mp hp
  obtain ⟨b, hb⟩ := samplesChannels_eq_ok.mp hshape
  refine ⟨b, samples, channels, hb, ?_⟩
  by_cases hlen : xs.length < samples * channels
  · simp only [if_pos hlen] at hp
    contradiction
  · simp only [if_neg hlen] at hp
    injection hp with hp
    exact ⟨Nat.le_of_not_lt hlen, hp.symm⟩

/-- An element of a list between repeated zeros is one of the list, or zero. -/
theorem getElem?_between {α : Type} {zero y : α} {xs : List α} {m n r i : Nat}
    (hn : n ≤ xs.length)
    (hy : (List.replicate m zero ++ xs.take n ++ List.replicate r zero)[i]? = some y) :
    ((m ≤ i ∧ i < m + n) ∧ xs[i - m]? = some y) ∨ (¬(m ≤ i ∧ i < m + n) ∧ y = zero) := by
  have hlen : (List.replicate m zero ++ xs.take n).length = m + n := by
    rw [List.length_append, List.length_replicate, List.length_take, Nat.min_eq_left hn]
  have hzero : ∀ {k j : Nat}, (List.replicate k zero)[j]? = some y → y = zero := by
    intro k j hj
    exact List.eq_of_mem_replicate (List.mem_of_getElem? hj)
  by_cases hin : i < m + n
  · rw [List.getElem?_append_left (hlen ▸ hin)] at hy
    by_cases hm : m ≤ i
    · rw [List.getElem?_append_right (by rwa [List.length_replicate]), List.length_replicate,
        List.getElem?_take_of_lt (by omega)] at hy
      exact .inl ⟨⟨hm, hin⟩, hy⟩
    · rw [List.getElem?_append_left (by rw [List.length_replicate]; omega)] at hy
      exact .inr ⟨fun h => hm h.1, hzero hy⟩
  · rw [List.getElem?_append_right (by omega)] at hy
    exact .inr ⟨fun h => hin h.2, hzero hy⟩

variable {K : Type} [Field K] [LinearOrder K] {exp : K → K} {value : Element → K} {lowest : K}

/-- An element of padded samples is one of the samples, or a padding zero. -/
theorem getElem?_of_zeroPadding {l : Layer} {padding : List (Nat × Nat)} {xs ys : List K}
    {b samples channels : Nat} (hl : l.inputShape = [b, samples, channels])
    (hp : zeroPadding (.exact exp value lowest) l padding xs = .ok ys) (i : Nat) (y : K)
    (hy : ys[i]? = some y) :
    let origin := unpadded (padding.head?.getD (0, 0)).1 samples channels
    (∃ j, origin i = some j ∧ xs[j]? = some y) ∨ (origin i = none ∧ y = 0) := by
  intro origin
  obtain ⟨b', samples', channels', hl', hlen, rfl⟩ := zeroPadding_cases hp
  rw [hl] at hl'
  obtain ⟨rfl, rfl, rfl⟩ : b = b' ∧ samples = samples' ∧ channels = channels' := by simpa using hl'
  rcases getElem?_between hlen hy with ⟨hin, hx⟩ | ⟨hout, hzero⟩
  · rw [← Nat.add_mul] at hin
    exact .inl ⟨_, if_pos hin, hx⟩
  · rw [← Nat.add_mul] at hout
    exact .inr ⟨if_neg hout, hzero⟩

/-! ## Convolutions -/

/-- The indices of weights and inputs that a convolution multiplies and adds up, by
place and filter. -/
def addends (l : Layer) : List (List (List (Nat × Nat))) :=
  match l.kind, l.inputShape, l.outputShape with
  | .conv1D c, [_, samples, channels], [_, places, filters] =>
    (List.range places).map fun place => (List.range filters).map fun k =>
      (Window.of c samples channels filters).terms place k
  | _, _, _ => []

/-- What a convolution adds up, place by place and filter by filter. -/
theorem addends_eq {l : Layer} {c : Convolution} {b samples channels b' places filters : Nat}
    (hk : l.kind = .conv1D c) (hi : l.inputShape = [b, samples, channels])
    (ho : l.outputShape = [b', places, filters]) :
    addends l = (List.range places).map fun place => (List.range filters).map fun k =>
      (Window.of c samples channels filters).terms place k := by
  rw [addends, hk, hi, ho]

/-- The products of a filter, kernel element by kernel element. -/
theorem terms_eq (w : Window) (place k : Nat) :
    w.terms place k = (List.range w.size).flatMap fun x =>
      (w.sample? place x).elim [] fun s => (List.range w.perGroup).map fun z =>
        ((k * w.size + x) * w.perGroup + z,
          s * w.channels + (z + k / w.filtersPerGroup * w.perGroup)) := by
  rw [Window.terms]
  refine congrArg (List.flatMap · _) (funext fun x => ?_)
  cases w.sample? place x <;> rfl

def filterSum {α : Type} (a : Arithmetic α) (c : Convolution) (w : Window) (xs : List α)
    (place k : Nat) : Except Failure α := do
  withBias a c.bias k (a.sumFrom a.zero (← products a c.kernel xs (w.terms place k)))

/-- What a convolution has checked and computed. -/
theorem convolution_eq_ok {α : Type} {a : Arithmetic α} {l : Layer} {c : Convolution}
    {xs out : List α} :
    convolution a l c xs = .ok out ↔
      ∃ b samples channels b' places filters sums,
        l.inputShape = [b, samples, channels] ∧ l.outputShape = [b', places, filters] ∧
        ((List.range places).mapM fun place => (List.range filters).mapM fun k =>
          filterSum a c (Window.of c samples channels filters) xs place k) = .ok sums ∧
        activate a l c.activation sums.flatten = .ok out := by
  constructor
  · intro hc
    obtain ⟨⟨samples, channels⟩, hi, hc⟩ := bind_eq_ok.mp hc
    obtain ⟨⟨places, filters⟩, ho, hc⟩ := bind_eq_ok.mp hc
    obtain ⟨sums, hsums, hc⟩ := bind_eq_ok.mp hc
    obtain ⟨b, hb⟩ := samplesChannels_eq_ok.mp hi
    obtain ⟨b', hb'⟩ := samplesChannels_eq_ok.mp ho
    exact ⟨b, samples, channels, b', places, filters, sums, hb, hb', hsums, hc⟩
  · rintro ⟨b, samples, channels, b', places, filters, sums, hi, ho, hsums, hc⟩
    exact bind_eq_ok.mpr ⟨_, samplesChannels_eq_ok.mpr ⟨b, hi⟩, bind_eq_ok.mpr
      ⟨_, samplesChannels_eq_ok.mpr ⟨b', ho⟩, bind_eq_ok.mpr ⟨sums, hsums, hc⟩⟩⟩

/-- A filter gives the same sum when zeros are left out. -/
theorem filterSum_of_terms {c c' : Convolution} {w w' : Window} {xs ys : List K} {place k : Nat}
    {x : K} {origin : Nat → Option Nat} (hkernel : c'.kernel = c.kernel) (hbias : c'.bias = c.bias)
    (hxs : ∀ i y, xs[i]? = some y →
      (∃ j, origin i = some j ∧ ys[j]? = some y) ∨ (origin i = none ∧ y = 0))
    (hw : w'.terms place k = (w.terms place k).filterMap (retrace origin))
    (hx : filterSum (.exact exp value lowest) c w xs place k = .ok x) :
    filterSum (.exact exp value lowest) c' w' ys place k = .ok x := by
  obtain ⟨ps, hps, hx⟩ := bind_eq_ok.mp hx
  obtain ⟨qs, hqs, hsum⟩ := products_filterMap hxs hps
  rw [sumFrom_exact, ← hsum] at hx
  refine bind_eq_ok.mpr ⟨qs, ?_, ?_⟩
  · rw [hkernel, hw, hqs]
  · rw [sumFrom_exact, hbias, hx]

/-- A convolution that pads by itself gives on samples what it gave on padded samples. -/
theorem layer_padded {l : Layer} {c : Convolution} {padding : List (Nat × Nat)}
    {shapes : List Shape} {sample out : List K} {operands operands' : List (List K)}
    {origin : Nat → Option Nat} {b samples channels : Nat} (hk : l.kind = .conv1D c)
    (hshapes : shapes.head?.getD [] = [b, samples, channels])
    (hoperands : ∀ i y, (operands.head?.getD [])[i]? = some y →
      (∃ j, origin i = some j ∧ (operands'.head?.getD [])[j]? = some y) ∨
        (origin i = none ∧ y = 0))
    (hadd : addends (padded padding shapes l) =
      (addends l).map (List.map (List.filterMap (retrace origin))))
    (hr : layer (.exact exp value lowest) sample l operands = .ok out) :
    layer (.exact exp value lowest) sample (padded padding shapes l) operands' = .ok out := by
  have hk' : (padded padding shapes l).kind = .conv1D { c with padding := padding } := by
    rw [padded, hk]
    rfl
  simp only [layer, hk, hk'] at hr ⊢
  obtain ⟨b₁, samples₁, channels₁, b₂, places, filters, sums, hi, ho, hsums, hact⟩ :=
    convolution_eq_ok.mp hr
  refine convolution_eq_ok.mpr ⟨b, samples, channels, b₂, places, filters, sums, hshapes, ho, ?_,
    hact⟩
  rw [addends_eq hk' hshapes ho, addends_eq hk hi ho, List.map_map] at hadd
  refine mapM_ok_mono (fun place hplace row hrow => ?_) hsums
  refine mapM_ok_mono (fun k hkf x hx => ?_) hrow
  have hrow' := List.map_inj_left.mp hadd place hplace
  rw [Function.comp_apply, List.map_map] at hrow'
  exact filterSum_of_terms rfl rfl hoperands (List.map_inj_left.mp hrow' k hkf) hx

/-! ## Padding adds up -/

/-- The window that reads samples where `w` reads them behind padding. -/
def Window.behind (w : Window) (left samples : Nat) : Window :=
  { w with samples := samples, left := w.left + left }

/-- A window behind padding sees the samples moved to the right. -/
theorem sample?_behind (w : Window) (left samples place x : Nat) :
    (w.behind left samples).sample? place x =
      if w.left + left ≤ place * w.stride + x ∧ place * w.stride + x - (w.left + left) < samples
      then some (place * w.stride + x - (w.left + left)) else none :=
  rfl

/-- A sample behind padding is one of those in front of it, or a zero. -/
theorem retrace_sample {left samples channels weight s z : Nat} (hz : z < channels) :
    retrace (unpadded left samples channels) (weight, s * channels + z) =
      if left ≤ s ∧ s < left + samples then some (weight, (s - left) * channels + z) else none := by
  have hle : left * channels ≤ s * channels + z ↔ left ≤ s := by
    constructor
    · intro h
      by_contra hlt
      have hmul : (s + 1) * channels ≤ left * channels := Nat.mul_le_mul_right _ (by omega)
      rw [Nat.add_mul] at hmul
      omega
    · intro h
      exact Nat.le_trans (Nat.mul_le_mul_right _ h) (Nat.le_add_right _ _)
  have hlt : s * channels + z < (left + samples) * channels ↔ s < left + samples := by
    constructor
    · intro h
      by_contra hge
      have hmul : (left + samples) * channels ≤ s * channels := Nat.mul_le_mul_right _ (by omega)
      omega
    · intro h
      have hmul : (s + 1) * channels ≤ (left + samples) * channels := Nat.mul_le_mul_right _ h
      rw [Nat.add_mul] at hmul
      omega
  rw [retrace, unpadded]
  simp only [hle, hlt]
  split
  · next hs =>
      rw [Option.map_some, Nat.sub_mul]
      have hmul := Nat.mul_le_mul_right channels hs.1
      congr 2
      omega
  · rfl

/-- The products of a window over padded samples, without the padding zeros, are those
of a window that pads by itself, in front of what it padded before. -/
theorem terms_behind {w : Window} {left samples right place k : Nat}
    (hw : w.samples = left + samples + right)
    (hk : k / w.filtersPerGroup * w.perGroup + w.perGroup ≤ w.channels) :
    (w.terms place k).filterMap (retrace (unpadded left samples w.channels)) =
      (w.behind left samples).terms place k := by
  have hz : ∀ z ∈ List.range w.perGroup, z + k / w.filtersPerGroup * w.perGroup < w.channels := by
    intro z hz
    rw [List.mem_range] at hz
    omega
  -- One element of the kernel meets one sample, or padding.
  have hsample : ∀ x, (w.behind left samples).sample? place x = (w.sample? place x).bind fun s =>
      if left ≤ s ∧ s < left + samples then some (s - left) else none := by
    intro x
    rw [sample?_behind, Window.sample?, hw]
    by_cases hin : w.left ≤ place * w.stride + x ∧
        place * w.stride + x - w.left < left + samples + right
    · rw [if_pos hin, Option.bind_some]
      by_cases hs : left ≤ place * w.stride + x - w.left ∧
          place * w.stride + x - w.left < left + samples
      · rw [if_pos hs, if_pos (by omega), Nat.sub_add_eq]
      · rw [if_neg hs, if_neg (by omega)]
    · rw [if_neg hin, if_neg (by omega), Option.bind_none]
  rw [terms_eq, terms_eq, List.filterMap_flatMap]
  refine congrArg (List.flatMap · _) (funext fun x => ?_)
  rw [hsample x]
  cases hs : w.sample? place x with
  | none => rfl
  | some s =>
      rw [Option.bind_some, Option.elim_some, List.filterMap_map]
      by_cases hin : left ≤ s ∧ s < left + samples
      · rw [if_pos hin]
        refine List.filterMap_eq_map_iff_forall_eq_some.mpr ?_
        intro z hzm
        rw [Function.comp_apply, retrace_sample (hz z hzm), if_pos hin]
        rfl
      · rw [if_neg hin]
        refine List.filterMap_eq_nil_iff.mpr ?_
        intro z hzm
        rw [Function.comp_apply, retrace_sample (hz z hzm), if_neg hin]

/-- The channels of a filter's group are channels of the input, when the groups share out
the filters evenly. -/
theorem group_le_channels {c : Convolution} {samples channels filters k : Nat}
    (hgroups : max c.groups 1 ∣ filters) (hk : k < filters) :
    let w := Window.of c samples channels filters
    k / w.filtersPerGroup * w.perGroup + w.perGroup ≤ w.channels := by
  intro w
  show k / max (filters / max c.groups 1) 1 * (channels / max c.groups 1) +
    channels / max c.groups 1 ≤ channels
  obtain ⟨m, hm⟩ := hgroups
  have hpos : 0 < max c.groups 1 := by omega
  have hdiv : filters / max c.groups 1 = m := by rw [hm, Nat.mul_div_cancel_left _ hpos]
  have hm1 : 1 ≤ m := by
    by_contra h0
    rw [show m = 0 by omega, Nat.mul_zero] at hm
    omega
  have hgroup : k / m < max c.groups 1 := by
    rw [Nat.div_lt_iff_lt_mul hm1, ← hm]
    exact hk
  rw [hdiv, Nat.max_eq_left hm1]
  calc k / m * (channels / max c.groups 1) + channels / max c.groups 1
      = (k / m + 1) * (channels / max c.groups 1) := by rw [Nat.add_mul, Nat.one_mul]
    _ ≤ max c.groups 1 * (channels / max c.groups 1) := Nat.mul_le_mul_right _ hgroup
    _ ≤ channels := Nat.mul_div_le channels _

/-- A convolution without padding in front of its samples, declared to read what a
padding layer writes, takes over the padding of that layer and keeps its products. -/
theorem addends_padded {l : Layer} {c : Convolution} {padding : List (Nat × Nat)}
    {shapes : List Shape} {b b₁ b₂ left samples right channels places filters : Nat}
    (hk : l.kind = .conv1D c) (hi : l.inputShape = [b₁, left + samples + right, channels])
    (ho : l.outputShape = [b₂, places, filters]) (hown : (c.padding.head?.getD (0, 0)).1 = 0)
    (hgroups : max c.groups 1 ∣ filters)
    (hshapes : shapes.head?.getD [] = [b, samples, channels])
    (hpad : padding.head?.getD (0, 0) = (left, right)) :
    addends (padded padding shapes l) =
      (addends l).map (List.map (List.filterMap (retrace (unpadded left samples channels)))) := by
  have hk' : (padded padding shapes l).kind = .conv1D { c with padding := padding } := by
    rw [padded, hk]
    rfl
  have hwindow : Window.of { c with padding := padding } samples channels filters =
      (Window.of c (left + samples + right) channels filters).behind left samples := by
    simp [Window.of, Window.behind, hpad, hown]
  rw [addends_eq hk' hshapes ho, addends_eq hk hi ho, List.map_map, hwindow]
  refine List.map_congr_left fun place _ => ?_
  rw [Function.comp_apply, List.map_map]
  refine List.map_congr_left fun k hkf => ?_
  rw [Function.comp_apply]
  exact (terms_behind rfl (group_le_channels hgroups (List.mem_range.mp hkf))).symm

/-! ## Sums that agree -/

section Sums

variable {K : Type} [Field K]

/-- The sum of products of weights and inputs that are given by their indices. -/
def weighted (kernel input : Nat → K) (terms : List (Nat × Nat)) : K :=
  (terms.map fun t => kernel t.1 * input t.2).sum

theorem weighted_cons (kernel input : Nat → K) (t : Nat × Nat) (terms : List (Nat × Nat)) :
    weighted kernel input (t :: terms) = kernel t.1 * input t.2 + weighted kernel input terms := by
  rw [weighted, List.map_cons, List.sum_cons, weighted]

/-- Every weight stands behind those of smaller index. -/
def Ascending (terms : List (Nat × Nat)) : Prop := terms.Pairwise fun s t => s.1 < t.1

/-- The weights of a filter come in ascending order. -/
theorem ascending_terms (w : Window) (place k : Nat) : Ascending (w.terms place k) := by
  rw [Ascending, terms_eq, List.pairwise_flatMap]
  constructor
  · intro x _
    cases w.sample? place x with
    | none => exact List.Pairwise.nil
    | some s =>
        rw [Option.elim_some, List.pairwise_map]
        exact List.pairwise_lt_range.imp fun hz => Nat.add_lt_add_left hz _
  · refine List.pairwise_lt_range.imp fun {x y} hxy s hs t ht => ?_
    -- The weights of one element of the kernel come before those of the next.
    have hweight : ∀ {u : Nat} {q : Nat × Nat},
        (q ∈ (w.sample? place u).elim [] fun i => (List.range w.perGroup).map fun z =>
          ((k * w.size + u) * w.perGroup + z,
            i * w.channels + (z + k / w.filtersPerGroup * w.perGroup))) →
        ∃ z < w.perGroup, q.1 = (k * w.size + u) * w.perGroup + z := by
      intro u q hq
      cases hu : w.sample? place u with
      | none =>
          rw [hu] at hq
          contradiction
      | some i =>
          rw [hu] at hq
          obtain ⟨z, hz, rfl⟩ := List.mem_map.mp hq
          exact ⟨z, List.mem_range.mp hz, rfl⟩
    obtain ⟨z, hz, hs⟩ := hweight hs
    obtain ⟨z', _, ht⟩ := hweight ht
    have hstep : (k * w.size + x + 1) * w.perGroup ≤ (k * w.size + y) * w.perGroup :=
      Nat.mul_le_mul_right _ (by omega)
    rw [Nat.add_mul _ 1, Nat.one_mul] at hstep
    omega

theorem Ascending.retraced {terms : List (Nat × Nat)} (ht : Ascending terms)
    (origin : Nat → Option Nat) : Ascending (terms.filterMap (retrace origin)) := by
  refine ht.filterMap _ fun s t hst s' hs t' ht => ?_
  obtain ⟨_, _, rfl⟩ := Option.map_eq_some_iff.mp hs
  obtain ⟨_, _, rfl⟩ := Option.map_eq_some_iff.mp ht
  exact hst

/-- Padding zeros can be left out of a sum. -/
theorem weighted_retraced (kernel input : Nat → K) (origin : Nat → Option Nat)
    (terms : List (Nat × Nat)) :
    weighted kernel (fun i => (origin i).elim 0 input) terms =
      weighted kernel input (terms.filterMap (retrace origin)) := by
  induction terms with
  | nil => rfl
  | cons t terms ih =>
      rw [weighted_cons, ih]
      cases ho : origin t.2 with
      | none =>
          rw [List.filterMap_cons_none (by rw [retrace, ho, Option.map_none])]
          simp
      | some j =>
          rw [List.filterMap_cons_some (by rw [retrace, ho, Option.map_some])]
          rw [weighted_cons, Option.elim_some]

/-- A sum with one weight and one input that are not zero tells whether the two are
multiplied. -/
theorem weighted_probe {terms : List (Nat × Nat)} (ht : terms.Nodup) (a b : Nat) :
    weighted (fun x => if x = a then 1 else 0) (fun x => if x = b then 1 else 0) terms =
      if (a, b) ∈ terms then (1 : K) else 0 := by
  induction terms with
  | nil => simp [weighted]
  | cons t terms ih =>
      rw [List.nodup_cons] at ht
      rw [weighted_cons, ih ht.2]
      by_cases hab : t = (a, b)
      · have hnot : (a, b) ∉ terms := hab ▸ ht.1
        simp [hab, hnot]
      · have hzero : (if t.1 = a then (1 : K) else 0) * (if t.2 = b then 1 else 0) = 0 := by
          by_cases ha : t.1 = a
          · have hb : t.2 ≠ b := fun hb => hab (Prod.ext ha hb)
            simp [hb]
          · simp [ha]
        rw [hzero, zero_add]
        simp [Ne.symm hab]

/-- Sums that agree for all weights and inputs have the same products. -/
theorem eq_of_weighted {s t : List (Nat × Nat)} (hs : Ascending s) (ht : Ascending t)
    (h : ∀ kernel input : Nat → K, weighted kernel input s = weighted kernel input t) : s = t := by
  have : Std.Antisymm fun s t : Nat × Nat => s.1 < t.1 :=
    ⟨fun _ _ hlt hgt => absurd hgt (Nat.lt_asymm hlt)⟩
  have : Std.Irrefl fun s t : Nat × Nat => s.1 < t.1 := ⟨fun _ => Nat.lt_irrefl _⟩
  refine hs.eq_of_mem_iff ht fun p => ?_
  have hp := h (fun x => if x = p.1 then 1 else 0) (fun x => if x = p.2 then 1 else 0)
  rw [weighted_probe hs.nodup, weighted_probe ht.nodup] at hp
  by_cases hps : p ∈ s <;> by_cases hpt : p ∈ t <;> simp [hps, hpt] at hp ⊢

/-- Lists that no member of a family of maps tells apart are equal. -/
theorem eq_of_forall_map_eq {ι α β : Type} {f : ι → α → β} {xs ys : List α} [Nonempty ι]
    (hf : ∀ x ∈ xs, ∀ y ∈ ys, (∀ q, f q x = f q y) → x = y)
    (h : ∀ q, xs.map (f q) = ys.map (f q)) : xs = ys := by
  induction xs generalizing ys with
  | nil =>
      have hnil := h (Classical.arbitrary ι)
      rw [List.map_nil] at hnil
      exact (List.map_eq_nil_iff.mp hnil.symm).symm
  | cons x xs ih =>
      cases ys with
      | nil =>
          have hnil := h (Classical.arbitrary ι)
          contradiction
      | cons y ys =>
          have hhead : ∀ q, f q x = f q y := fun q => (List.cons.inj (h q)).1
          have htail : ∀ q, xs.map (f q) = ys.map (f q) := fun q => (List.cons.inj (h q)).2
          rw [hf x List.mem_cons_self y List.mem_cons_self hhead, ih ?_ htail]
          exact fun x hx y hy => hf x (List.mem_cons_of_mem _ hx) y (List.mem_cons_of_mem _ hy)

/-- So do those of every sum of a layer. -/
theorem ascending_of_mem_addends {l : Layer} {row : List (List (Nat × Nat))}
    {terms : List (Nat × Nat)} (hrow : row ∈ addends l) (ht : terms ∈ row) : Ascending terms := by
  unfold addends at hrow
  split at hrow
  · obtain ⟨place, _, rfl⟩ := List.mem_map.mp hrow
    obtain ⟨k, _, rfl⟩ := List.mem_map.mp ht
    exact ascending_terms _ place k
  · contradiction

/-- Convolutions have the same addends, those with a padding zero left out, exactly when
they compute the same sums from all weights and inputs. -/
theorem addends_retraced_iff {l l' : Layer} {origin : Nat → Option Nat} :
    addends l' = (addends l).map (List.map (List.filterMap (retrace origin))) ↔
      ∀ kernel input : Nat → K, (addends l').map (List.map (weighted kernel input)) =
        (addends l).map (List.map (weighted kernel fun i => (origin i).elim 0 input)) := by
  have hleft : ∀ kernel input : Nat → K,
      (addends l).map (List.map (weighted kernel fun i => (origin i).elim 0 input)) =
        ((addends l).map (List.map (List.filterMap (retrace origin)))).map
          (List.map (weighted kernel input)) := by
    intro kernel input
    rw [List.map_map]
    refine List.map_congr_left fun row _ => ?_
    rw [Function.comp_apply, List.map_map]
    exact List.map_congr_left fun terms _ => weighted_retraced kernel input origin terms
  simp only [hleft]
  constructor
  · intro h kernel input
    rw [h]
  · intro h
    let probe : (Nat → K) × (Nat → K) → List (List (Nat × Nat)) → List K :=
      fun q => List.map (weighted q.1 q.2)
    refine eq_of_forall_map_eq (f := probe) (fun row hrow row' hrow' hq => ?_) fun q => h q.1 q.2
    refine eq_of_forall_map_eq (f := fun q : (Nat → K) × (Nat → K) => weighted q.1 q.2)
      (fun terms ht terms' ht' hq' => ?_) hq
    obtain ⟨old, hold, rfl⟩ := List.mem_map.mp hrow'
    obtain ⟨ts, hts, rfl⟩ := List.mem_map.mp ht'
    exact eq_of_weighted (ascending_of_mem_addends hrow ht)
      ((ascending_of_mem_addends hold hts).retraced origin) fun kernel input => hq' (kernel, input)

end Sums

end NeuralC.Evaluate
