import NeuralC.Proofs.Compile.Macros

/-!
# NeuralC.Proofs.Compile.Guards

When the macros of the generated headers are distinct.  A header is guarded by a
macro that is formed from its name, and the header of the sizes has one macro for
each layer, also formed from its name.  Both are in upper case.  Names are
distinct identifiers, but case counts for them: the macros of two layers are one
when the names differ in case only, and a guard is one of the whole model when the
name of the layer is, but for case, the name of a header of the whole model.
-/

namespace NeuralC

namespace Emit

open NeuralC.C

/-! ## Headers -/

def isHeader (a : Artifact) : Bool := ".h".toList.isSuffixOf a.path.toList

def headers (as : List Artifact) : List Artifact := as.filter isHeader

/-- The headers among the files are guarded by the macros of the names. -/
def GuardedBy (as : List Artifact) (names : List String) : Prop :=
  (headers as).map (fun a => guardOf? a.contents) = names.map fun name => some (guard name)

/-- Artifacts put together are guarded by the names of both. -/
theorem GuardedBy.append {as bs : List Artifact} {names names' : List String}
    (has : GuardedBy as names) (hbs : GuardedBy bs names') :
    GuardedBy (as ++ bs) (names ++ names') := by
  rw [GuardedBy, headers, List.filter_append, List.map_append, List.map_append]
  exact congrArg₂ _ has hbs

theorem guardedBy_header {a : Artifact} {name : String} (hpath : a.path = Slot.header.path name)
    (hguard : guardOf? a.contents = some (guard name)) : GuardedBy [a] [name] := by
  have hheader : isHeader a = true := by
    rw [isHeader, hpath, List.isSuffixOf_iff_suffix]
    exact ⟨("include/" ++ name).toList, by simp [Slot.path]⟩
  simp [GuardedBy, headers, hheader, hguard]

/-- Sources have no guards. -/
theorem guardedBy_source {a : Artifact} {front : String} (hpath : a.path = front ++ ".c") :
    GuardedBy [a] [] := by
  have hother : isHeader a = false := by
    rw [isHeader, hpath, ← Bool.not_eq_true, List.isSuffixOf_iff_suffix]
    rintro ⟨start, hstart⟩
    have hlast := congrArg List.getLast? hstart
    simp at hlast
  simp [GuardedBy, headers, hother]

/-- The header of a layer is guarded by the layer's name. -/
theorem guardOf?_layerHeader {s : Scope} {h : Handle} {n : Node} {family x : String}
    (hx : engine (.layerHeader family) s = .ok x) (hlayer : s.layer = some h)
    (hn : s.graph.get? h = some n) (hword : IsWord n.name) : guardOf? x = some (guard n.name) := by
  obtain ⟨code, hcode, rfl⟩ := engine_eq_ok.mp hx
  obtain ⟨l, hl, hcode⟩ := bind_eq_ok.mp hcode
  injection hcode with hcode
  obtain ⟨rest, hheader⟩ := layerHeader_eq l
  have hname : l.name = n.name := congrArg Node.name (node_of_bind hl hlayer hn)
  rw [← hcode, hheader, hname, lines, List.map_append, List.append_assoc]
  exact guardOf?_render hword _

theorem isWord_of_mem_reserved {name : String} (hname : name ∈ reserved) : IsWord name := by
  simp only [reserved, List.mem_cons, List.not_mem_nil, or_false] at hname
  rcases hname with rfl | rfl | rfl <;> simp [IsWord, Simplify.isIdentifierChar]

/-- Each header of the model is guarded by its own name. -/
theorem guardedBy_modelHeader {s : Scope} {t : Template} {name : String} {a : Artifact}
    (ht : (t, name) ∈ modelHeaders) (hname : name ∈ reserved)
    (ha : Rendered s (Slot.header.path name, t) a) : GuardedBy [a] [name] := by
  obtain ⟨code, hcode, htext⟩ := engine_eq_ok.mp ha.contents_eq
  obtain ⟨start, _, more, rest, rfl⟩ := modelHeader_eq ht hcode
  rw [lines, List.map_append, List.append_assoc] at htext
  refine guardedBy_header ha.path_eq ?_
  rw [← htext]
  exact guardOf?_render (isWord_of_mem_reserved hname) _

/-- The files of a layer have one header, and of the input layer none. -/
theorem guardedBy_layer {s : Scope} {h : Handle} {n : Node} {as : List Artifact}
    (hn : s.graph.get? h = some n) (hword : IsWord n.name) (hr : LayerRendered s h as) :
    GuardedBy as (if n.layer.isInput then [] else [n.name]) := by
  cases hr with
  | input hn' hfamily =>
      obtain rfl := Option.some.inj (hn.symm.trans hn')
      rw [isInput_of_family? hfamily]
      rfl
  | @computed _ family _ _ hn' hfamily _ has =>
      obtain rfl := Option.some.inj (hn.symm.trans hn')
      have hcomputed : n.layer.isInput = false := isInput_of_family? hfamily
      rw [hcomputed]
      rw [layerFiles, List.cons_append, List.cons_append, List.nil_append] at has
      obtain ⟨a, _, ha, hrest, rfl⟩ := List.forall₂_cons_left_iff.mp has
      obtain ⟨b, cs, hb, hcs, rfl⟩ := List.forall₂_cons_left_iff.mp hrest
      have hheader := guardedBy_header ha.path_eq (guardOf?_layerHeader ha.contents_eq rfl hn hword)
      have hsource := guardedBy_source hb.path_eq
      have hweights : GuardedBy cs [] := by
        split at hcs
        · obtain ⟨c, _, hc, hnil, rfl⟩ := List.forall₂_cons_left_iff.mp hcs
          obtain rfl := List.forall₂_nil_left_iff.mp hnil
          exact guardedBy_source hc.path_eq
        · obtain rfl := List.forall₂_nil_left_iff.mp hcs
          rfl
      exact hheader.append (hsource.append hweights)

/-- The headers of the layers are guarded by their names, in order. -/
theorem guardedBy_layers {s : Scope} {hs : List Handle} {layers : List (List Artifact)}
    {ns : List Node} (hl : List.Forall₂ (LayerRendered s) hs layers)
    (hns : hs.mapM s.graph.node = .ok ns) (hwords : ∀ n ∈ ns, IsWord n.name) :
    GuardedBy layers.flatten (computedNames ns) := by
  rw [mapM_eq_ok] at hns
  induction hl generalizing ns with
  | nil =>
      rw [List.forall₂_nil_left_iff.mp hns]
      rfl
  | cons hr _ ih =>
      obtain ⟨n, rest, hn, hrest, rfl⟩ := List.forall₂_cons_left_iff.mp hns
      have hfirst := guardedBy_layer (Graph.node_eq_ok.mp hn) (hwords n List.mem_cons_self) hr
      have hmore := ih hrest fun m hm => hwords m (List.mem_cons_of_mem n hm)
      have hnames : computedNames (n :: rest) =
          (if n.layer.isInput then [] else [n.name]) ++ computedNames rest := by
        cases hinput : n.layer.isInput <;> simp [computedNames, hinput]
      rw [List.flatten_cons, hnames]
      exact hfirst.append hmore

/-- The names of the headers of a model, in the order of the files, for the names of its
layers. -/
def headerNames (names : List String) : List String :=
  ["defines", "number"] ++ names ++ ["model"]

/-- All headers are guarded by their names, those of the model around those of the layers. -/
theorem guardedBy_emitted {s : Scope} {as leading trailing : List Artifact}
    {layers : List (List Artifact)} {ns : List Node} (he : Emitted s as leading layers trailing)
    (hns : s.graph.nodes = .ok ns) (hwords : ∀ n ∈ ns, IsWord n.name) :
    GuardedBy as (headerNames (computedNames ns)) := by
  have hleading : GuardedBy leading ["defines", "number"] := by
    obtain ⟨a, _, ha, hrest, rfl⟩ := List.forall₂_cons_left_iff.mp he.leading
    obtain ⟨b, _, hb, hnil, rfl⟩ := List.forall₂_cons_left_iff.mp hrest
    obtain rfl := List.forall₂_nil_left_iff.mp hnil
    have hdefines : GuardedBy [a] ["defines"] :=
      guardedBy_modelHeader (by simp [modelHeaders]) (by simp [reserved]) ha
    have hnumber : GuardedBy [b] ["number"] :=
      guardedBy_modelHeader (by simp [modelHeaders]) (by simp [reserved]) hb
    exact hdefines.append hnumber
  have htrailing : GuardedBy trailing ["model"] := by
    obtain ⟨a, _, ha, hrest, rfl⟩ := List.forall₂_cons_left_iff.mp he.trailing
    obtain ⟨b, _, hb, hnil, rfl⟩ := List.forall₂_cons_left_iff.mp hrest
    obtain rfl := List.forall₂_nil_left_iff.mp hnil
    have hmodel : GuardedBy [a] ["model"] :=
      guardedBy_modelHeader (by simp [modelHeaders]) (by simp [reserved]) ha
    have hpath : b.path = "model" ++ ".c" := hb.path_eq
    exact hmodel.append (guardedBy_source hpath)
  rw [he.eq_append, headerNames]
  exact (hleading.append (guardedBy_layers he.layers hns hwords)).append htrailing

/-- Whether values are distinct depends only on which of them are equal. -/
theorem nodup_map_congr {α β γ : Type} {xs : List α} {f : α → β} {f' : α → γ}
    (h : ∀ x ∈ xs, ∀ y ∈ xs, f x = f y ↔ f' x = f' y) : (xs.map f).Nodup ↔ (xs.map f').Nodup := by
  rw [List.Nodup, List.Nodup, List.pairwise_map, List.pairwise_map]
  exact List.Pairwise.iff_of_mem fun hx hy => not_congr (h _ hx _ hy)

theorem perm_headerNames (names : List String) : (headerNames names).Perm (names ++ reserved) := by
  rw [headerNames, List.append_assoc]
  refine List.perm_append_comm.trans ?_
  rw [List.append_assoc]
  exact List.Perm.append_left names (by decide)

/-- Header names are distinct exactly if those of the layers are, and none is reserved. -/
theorem nodup_headerNames_iff (names : List String) :
    (headerNames names).Nodup ↔ names.Nodup ∧ ∀ name ∈ names, name ∉ reserved := by
  have hreserved : reserved.Nodup := by decide
  rw [(perm_headerNames names).nodup_iff, List.nodup_append]
  simp only [hreserved, true_and]
  refine and_congr_right fun _ => ⟨fun h name hname hmem => h name hname name hmem rfl, ?_⟩
  rintro h name hname _ hmem rfl
  exact h name hname hmem

theorem isWord_of_mem_headerNames {names : List String} (hwords : ∀ name ∈ names, IsWord name)
    {name : String} (hname : name ∈ headerNames names) : IsWord name := by
  have hmem := (perm_headerNames names).mem_iff.mp hname
  exact (List.mem_append.mp hmem).elim (hwords name) isWord_of_mem_reserved

theorem toLower_eq_self {text : String} (htext : text.toList.map Char.toLower = text.toList) :
    text.toLower = text := by
  rw [← String.toList_inj, String.toLower, String.toList_map, htext]

/-- The reserved names are in lower case. -/
theorem map_toLower_headerNames (names : List String) :
    (headerNames names).map String.toLower = headerNames (names.map String.toLower) := by
  have hdefines : "defines".toLower = "defines" := toLower_eq_self (by decide)
  have hnumber : "number".toLower = "number" := toLower_eq_self (by decide)
  have hmodel : "model".toLower = "model" := toLower_eq_self (by decide)
  simp only [headerNames, List.map_append, List.map_cons, List.map_nil, hdefines, hnumber, hmodel]

/-- The guards are distinct when the names are, but for case, and none is a name of the whole
model. -/
theorem nodup_guards_iff {names : List String} (hwords : ∀ name ∈ names, IsWord name) :
    ((headerNames names).map guard).Nodup ↔
      (names.map String.toLower).Nodup ∧ ∀ name ∈ names, name.toLower ∉ reserved := by
  have hguards : ∀ a ∈ headerNames names, ∀ b ∈ headerNames names,
      guard a = guard b ↔ a.toLower = b.toLower := fun a ha b hb =>
    guard_eq_iff (isWord_of_mem_headerNames hwords ha) (isWord_of_mem_headerNames hwords hb)
  rw [nodup_map_congr hguards, map_toLower_headerNames, nodup_headerNames_iff, List.forall_mem_map]

/-! ## Inclusion -/

/-- The headers that are taken in when some are come to in order: a header is passed over when its
guard is defined. -/
def included (defined : List String) : List Artifact → List Artifact
  | [] => []
  | a :: as =>
    match guardOf? a.contents with
    | none => a :: included defined as
    | some g => if g ∈ defined then included defined as else a :: included (g :: defined) as

theorem length_included_le (defined : List String) (as : List Artifact) :
    (included defined as).length ≤ as.length := by
  induction as generalizing defined with
  | nil => simp [included]
  | cons a as ih =>
      rw [included]
      split
      · simpa using ih defined
      · split
        · exact (ih defined).trans (by simp)
        · simpa using ih _

/-- No header is passed over when all guards are new. -/
theorem included_eq_self_iff {as : List Artifact} {guards : List String}
    (has : as.map (fun a => guardOf? a.contents) = guards.map some) (defined : List String) :
    included defined as = as ↔ guards.Nodup ∧ ∀ g ∈ guards, g ∉ defined := by
  induction as generalizing guards defined with
  | nil =>
      obtain rfl : guards = [] := by simpa using has
      simp [included]
  | cons a as ih =>
      obtain ⟨g, rest, rfl, hg, hrest⟩ := List.map_eq_cons_iff.mp has.symm
      have hguard : guardOf? a.contents = some g := hg.symm
      rw [included, hguard]
      by_cases hmem : g ∈ defined
      · have hne : included defined as ≠ a :: as := fun h => by
          have hle := length_included_le defined as
          rw [h, List.length_cons] at hle
          omega
        simp [hmem, hne]
      · have hmore := ih hrest.symm (g :: defined)
        simp only [hmem, if_false, List.cons.injEq, true_and, hmore, List.nodup_cons]
        grind

/-! ## Bundles -/

def guards (b : Bundle) : List (Option String) :=
  (headers b.artifacts).map fun a => guardOf? a.contents

/-- The macros for sizes in the header of the sizes. -/
def sizes (b : Bundle) : List String :=
  ((b.get? "include/defines.h").map sizeMacros).getD []

/-- The sizes defined are those of the computed layers, in order. -/
theorem sizes_of_emitted {s : Scope} {b : Bundle} {leading trailing : List Artifact}
    {layers : List (List Artifact)} {ns : List Node}
    (he : Emitted s b.artifacts leading layers trailing) (hns : s.graph.nodes = .ok ns)
    (hwords : ∀ n ∈ ns, IsWord n.name) : sizes b = (computedNames ns).map sizeName := by
  obtain ⟨a, rest, ha, _, hleading⟩ := List.forall₂_cons_left_iff.mp he.leading
  obtain ⟨code, hcode, htext⟩ := engine_eq_ok.mp ha.contents_eq
  obtain ⟨texts, rfl, htexts⟩ := definesSizes_defines hcode hns hwords
  have hget : b.get? "include/defines.h" = some a.contents := by
    simp [Bundle.get?, he.eq_append, hleading, ha.path_eq]
  rw [sizes, hget, ← htext, Option.map_some, Option.getD_some, htexts.sizeMacros_eq]

end Emit

section Macros

variable {w v : Workspace} {c : Compilation} (hc : Compiled w c v)

include hc

/-- The names of the layers, with the macros that are formed from them. -/
theorem Compiled.exists_names : ∃ names, (C.computed v.graph).map (List.map Node.name) = .ok names ∧
    (∀ name ∈ names, IsWord name) ∧
    Emit.guards c.bundle = ((Emit.headerNames names).map C.guard).map some ∧
    Emit.sizes c.bundle = names.map Emit.sizeName := by
  obtain ⟨ns, hns, hwords, _⟩ := hc.names
  obtain ⟨_, _, _, he⟩ := hc.emitted
  refine ⟨Emit.computedNames ns, ?_, ?_, ?_, Emit.sizes_of_emitted he hns hwords⟩
  · rw [C.computed, hns]
    rfl
  · simp only [Emit.computedNames, List.forall_mem_map]
    exact fun n hn => hwords n (List.mem_filter.mp hn).1
  · rw [List.map_map]
    exact Emit.guardedBy_emitted he hns hwords

end Macros

/-- **Guards and sizes ignore case.**  The headers of a compilation are guarded, and the header of
the sizes defines one macro for each layer.  The guards are distinct, and no header is passed over
when all are included in order, exactly when the names of the layers are distinct but for case and
none is a name of the whole model; the macros of the sizes are distinct exactly when the names are
distinct but for case. -/
theorem macros_nodup_iff {text : String} {g : Graph} (hp : Model.parse text = .ok g)
    {format : NumberFormat} {table : Option Calibration.Table} {session : Session}
    {c : Compilation} {w : Workspace} (hc : compile format table ⟨g, session⟩ = .ok c w) :
    ∃ names, (C.computed w.graph).map (List.map Node.name) = .ok names ∧
      Emit.guards c.bundle =
        (["_DEFINES_H_", "_NUMBER_H_"] ++ names.map C.guard ++ ["_MODEL_H_"]).map some ∧
      Emit.sizes c.bundle = names.map Emit.sizeName ∧
      ((Emit.guards c.bundle).Nodup ↔
        (names.map String.toLower).Nodup ∧ ∀ name ∈ names, name.toLower ∉ Emit.reserved) ∧
      (Emit.included [] (Emit.headers c.bundle.artifacts) = Emit.headers c.bundle.artifacts ↔
        (names.map String.toLower).Nodup ∧ ∀ name ∈ names, name.toLower ∉ Emit.reserved) ∧
      ((Emit.sizes c.bundle).Nodup ↔ (names.map String.toLower).Nodup) := by
  obtain ⟨names, hnames, hwords, hguards, hsizes⟩ := (compiled_of_parse hp hc).exists_names
  have hfixed : C.guard "defines" = "_DEFINES_H_" ∧ C.guard "number" = "_NUMBER_H_" ∧
      C.guard "model" = "_MODEL_H_" := by decide +kernel
  have hdistinct := Emit.nodup_guards_iff hwords
  refine ⟨names, hnames, ?_, hsizes, ?_, ?_, ?_⟩
  · rw [hguards, Emit.headerNames]
    simp [hfixed]
  · rw [hguards, List.nodup_map_iff (Option.some_injective _), hdistinct]
  · rw [Emit.included_eq_self_iff hguards []]
    simpa using hdistinct
  · rw [hsizes]
    exact Emit.nodup_map_congr fun a ha b hb => Emit.sizeName_eq_iff (hwords a ha) (hwords b hb)

namespace Emit

/-- The names of the layers that a compilation which has ended generates files for. -/
def layerNames? : EStateM.Result Failure Workspace Compilation → Option (List String)
  | .ok _ w => ((C.computed w.graph).map (List.map Node.name)).toOption
  | .error _ _ => none

theorem exists_of_layerNames? {r : EStateM.Result Failure Workspace Compilation}
    {names : List String} (h : layerNames? r = some names) :
    ∃ c w, r = .ok c w ∧ (C.computed w.graph).map (List.map Node.name) = .ok names := by
  cases r with
  | ok c w => exact ⟨c, w, rfl, toOption_eq_some.mp h⟩
  | error _ _ => contradiction

/-- Two layers in a row, the first of them called `a`. -/
def inRow (second : String) : Graph where
  slots := [some ⟨.source "x" [1, 2], none, [], [1]⟩,
    some ⟨⟨"a", [[1, 2]], [[1, 2]], .float32, .flatten⟩, none, [0], [2]⟩,
    some ⟨⟨second, [[1, 2]], [[1, 2]], .float32, .flatten⟩, none, [1], []⟩]
  order := [0, 1, 2]

/-- The description of two layers with names that differ in more than case. -/
def apartText : String :=
  "x = input() -> [1, 2]\na = flatten(x) -> [1, 2]\nA-b = flatten(a) -> [1, 2]\n"

theorem parse_apartText : Model.parse apartText = .ok (inRow "A-b") :=
  Model.parse_of_toList String.toList_ofList (by decide +kernel)

theorem layerNames?_apart :
    layerNames? (compile .float32 none ⟨inRow "A-b", {}⟩) = some ["a", "Ab"] := by
  decide +kernel

end Emit

/-- Two layers whose names differ by more than case: every header is included. -/
theorem macros_nodup_apart :
    ∃ c w, Model.parse Emit.apartText = .ok (Emit.inRow "A-b") ∧
      compile .float32 none ⟨Emit.inRow "A-b", {}⟩ = .ok c w ∧
      Emit.guards c.bundle =
        [some "_DEFINES_H_", some "_NUMBER_H_", some "_A_H_", some "_AB_H_", some "_MODEL_H_"] ∧
      Emit.sizes c.bundle = ["A_OUTPUT_SIZE", "AB_OUTPUT_SIZE"] ∧
      Emit.included [] (Emit.headers c.bundle.artifacts) = Emit.headers c.bundle.artifacts := by
  obtain ⟨c, w, hc, hnames⟩ := Emit.exists_of_layerNames? Emit.layerNames?_apart
  obtain ⟨names, hnames', hguards, hsizes, hdistinct, hincluded, _⟩ :=
    macros_nodup_iff Emit.parse_apartText hc
  obtain rfl : ["a", "Ab"] = names := Except.ok.inj (hnames.symm.trans hnames')
  have heq : Emit.guards c.bundle =
      [some "_DEFINES_H_", some "_NUMBER_H_", some "_A_H_", some "_AB_H_", some "_MODEL_H_"] := by
    rw [hguards]
    decide +kernel
  have hnodup : (Emit.guards c.bundle).Nodup := by
    rw [heq]
    decide
  refine ⟨c, w, Emit.parse_apartText, hc, heq, ?_, hincluded.mpr (hdistinct.mp hnodup)⟩
  rw [hsizes]
  decide +kernel

namespace Emit

/-- The description of two layers with names that differ in case only. -/
def alikeText : String :=
  "x = input() -> [1, 2]\na = flatten(x) -> [1, 2]\nA = flatten(a) -> [1, 2]\n"

theorem parse_alikeText : Model.parse alikeText = .ok (inRow "A") :=
  Model.parse_of_toList String.toList_ofList (by decide +kernel)

theorem layerNames?_alike :
    layerNames? (compile .float32 none ⟨inRow "A", {}⟩) = some ["a", "A"] := by
  decide +kernel

end Emit

/-- The header of the second layer is passed over, and its size is defined twice. -/
theorem macros_clash_alike :
    ∃ c w, Model.parse Emit.alikeText = .ok (Emit.inRow "A") ∧
      compile .float32 none ⟨Emit.inRow "A", {}⟩ = .ok c w ∧
      ¬ (Emit.guards c.bundle).Nodup ∧ ¬ (Emit.sizes c.bundle).Nodup ∧
      Emit.included [] (Emit.headers c.bundle.artifacts) ≠ Emit.headers c.bundle.artifacts := by
  obtain ⟨c, w, hc, hnames⟩ := Emit.exists_of_layerNames? Emit.layerNames?_alike
  obtain ⟨names, hnames', _, hguards, hsizes⟩ :=
    (compiled_of_parse Emit.parse_alikeText hc).exists_names
  obtain rfl : ["a", "A"] = names := Except.ok.inj (hnames.symm.trans hnames')
  have hclash : ¬ ((Emit.headerNames ["a", "A"]).map C.guard).Nodup := by decide +kernel
  refine ⟨c, w, Emit.parse_alikeText, hc, ?_, ?_, fun hincluded => ?_⟩
  · rw [hguards, List.nodup_map_iff (Option.some_injective _)]
    exact hclash
  · rw [hsizes]
    decide +kernel
  · exact hclash ((Emit.included_eq_self_iff hguards []).mp hincluded).1

end NeuralC
