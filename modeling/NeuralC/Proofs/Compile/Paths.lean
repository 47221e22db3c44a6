import NeuralC.Proofs.Compile.Pipeline
import NeuralC.Proofs.Files.Write

/-!
# NeuralC.Proofs.Compile.Paths

The paths of the generated files.  Those of a layer are formed from its name, in
three places (`Slot`); those of the whole model are formed in the same way from
three fixed names.  Names are distinct identifiers by then, so two files have one
path exactly when a layer is called by one of the fixed names, and exactly then
writing the files into an empty directory loses one of them.
-/

namespace NeuralC

/-! ## Names -/

/-- A text that can stand in the name of a file: it leads nowhere else. -/
def IsWord (name : String) : Prop := ∀ c ∈ name.toList, Simplify.isIdentifierChar c = true

/-- An identifier is made of the characters of words. -/
theorem Simplify.isWord_identifier (name : String) : IsWord (identifier name) := by
  have hfilter : ∀ c ∈ name.toList.filter isIdentifierChar, isIdentifierChar c = true :=
    fun c hc => (List.mem_filter.mp hc).2
  rw [identifier]
  split
  · simp [IsWord]
  · next c cs hcs =>
    rw [hcs] at hfilter
    split
    · intro d hd
      rw [String.toList_ofList, List.mem_cons] at hd
      rcases hd with rfl | hd
      · decide
      · exact hfilter d hd
    · intro d hd
      rw [String.toList_ofList] at hd
      exact hfilter d hd

theorem IsWord.slash {name : String} (h : IsWord name) : '/' ∉ name.toList := fun hc =>
  absurd (h '/' hc) (by decide)

theorem IsWord.nul {name : String} (h : IsWord name) : Char.ofNat 0 ∉ name.toList := fun hc =>
  absurd (h _ hc) (by decide)

namespace Emit

open NeuralC.C NeuralC.Work

/-! ## Slots -/

/-- The files that a name can have. -/
inductive Slot where
  | header
  | source
  | weights
deriving DecidableEq

def Slot.path : Slot → String → String
  | header, name => "include/" ++ name ++ ".h"
  | source, name => name ++ ".c"
  | weights, name => "weights/" ++ name ++ ".c"

/-- The names that lead to a file of some name. -/
def Slot.place : Slot → String → List String
  | header, name => ["include", name ++ ".h"]
  | source, name => [name ++ ".c"]
  | weights, name => ["weights", name ++ ".c"]

/-- The path of a slot has the pieces that its place names. -/
theorem pieces_path (slot : Slot) {name : String} (hname : IsWord name) :
    Path.pieces (slot.path name) = slot.place name := by
  have hsingle : ∀ text : String, '/' ∉ text.toList → Path.pieces text = [text] := by
    intro text htext
    have hpieces := Path.pieces_intercalate (List.cons_ne_nil text []) (by simpa using htext)
    rwa [String.intercalate_singleton] at hpieces
  have hh : '/' ∉ (name ++ ".h").toList := by simpa using hname.slash
  have hc : '/' ∉ (name ++ ".c").toList := by simpa using hname.slash
  cases slot with
  | header =>
      have hpath : Slot.path .header name = "include" ++ "/" ++ (name ++ ".h") := by
        rw [← String.append_assoc]
        rfl
      rw [hpath, Path.pieces_append, hsingle _ hh]
      rfl
  | source => exact hsingle _ hc
  | weights =>
      have hpath : Slot.path .weights name = "weights" ++ "/" ++ (name ++ ".c") := by
        rw [← String.append_assoc]
        rfl
      rw [hpath, Path.pieces_append, hsingle _ hc]
      rfl

/-- A place determines slot and name. -/
theorem place_inj {slot slot' : Slot} {name name' : String}
    (h : slot.place name = slot'.place name') : slot = slot' ∧ name = name' := by
  cases slot <;> cases slot' <;> simp_all [Slot.place]

/-- Two paths are equal only for one slot and one name. -/
theorem path_inj {slot slot' : Slot} {name name' : String} (hname : IsWord name)
    (hname' : IsWord name') :
    slot.path name = slot'.path name' ↔ slot = slot' ∧ name = name' := by
  rw [← Path.pieces_inj, pieces_path slot hname, pieces_path slot' hname']
  exact ⟨place_inj, fun h => by rw [h.1, h.2]⟩

/-- The last letter of the name of a file. -/
def Slot.letter : Slot → Char
  | header => 'h'
  | source | weights => 'c'

/-- A piece of a path is a directory or ends in the letter of its slot. -/
theorem getLast?_of_mem_place {slot : Slot} {name piece : String} (h : piece ∈ slot.place name) :
    piece = "include" ∨ piece = "weights" ∨ piece.toList.getLast? = some slot.letter := by
  cases slot <;> simp only [Slot.place, List.mem_cons, List.not_mem_nil, or_false] at h <;>
    rcases h with rfl | rfl <;> simp [Slot.letter]

/-- The names that lead to a file are names of directories and files, if they are not too
long. -/
theorem isName_of_mem_place {slot : Slot} {name piece : String} (h : piece ∈ slot.place name)
    (hshort : piece.utf8ByteSize ≤ Tree.nameLimit) : Tree.IsName piece := by
  have hne : piece ≠ "" ∧ piece ≠ "." ∧ piece ≠ ".." := by
    rcases getLast?_of_mem_place h with rfl | rfl | hlast
    · decide
    · decide
    · refine ⟨?_, ?_, ?_⟩ <;> rintro rfl <;> cases slot <;> simp [Slot.letter] at hlast
  exact ⟨hne.1, hne.2.1, hne.2.2, hshort⟩

/-- No file stands on the way to another. -/
theorem place_eq_of_isPrefix {slot slot' : Slot} {name name' : String}
    (h : slot.place name <+: slot'.place name') : slot.place name = slot'.place name' := by
  -- only a source file called as a folder is could be in the way
  have hsource : ∀ folder : String, folder.toList.getLast? ≠ some 'c' → name ++ ".c" ≠ folder := by
    rintro folder hfolder rfl
    simp at hfolder
  cases slot <;> cases slot' <;> simp_all [Slot.place, List.cons_prefix_cons]

/-! ## Paths of a model -/

def slotsOf (n : Node) : List (Slot × String) :=
  if n.layer.isInput then []
  else [(.header, n.name), (.source, n.name)] ++
    if n.layer.hasWeights then [(.weights, n.name)] else []

/-- The files in front of those of the layers. -/
def leadingSlots : List (Slot × String) := [(.header, "defines"), (.header, "number")]

/-- The files behind those of the layers. -/
def trailingSlots : List (Slot × String) := [(.header, "model"), (.source, "model")]

def slots (ns : List Node) : List (Slot × String) :=
  leadingSlots ++ ns.flatMap slotsOf ++ trailingSlots

/-- The names that files of the whole model are called by. -/
def reserved : List String := ["defines", "number", "model"]

/-- Rendering keeps the paths. -/
theorem map_path_of_rendered {s : Scope} {files : List (String × Template)} {as : List Artifact}
    (h : List.Forall₂ (Rendered s) files as) : as.map Artifact.path = files.map Prod.fst := by
  induction h with
  | nil => rfl
  | cons hab _ ih => rw [List.map_cons, List.map_cons, hab.path_eq, ih]

theorem isInput_of_family? {l : Layer} {family : Option String} (h : family? l = .ok family) :
    l.isInput = family.isNone := by
  rw [family?] at h
  rw [Layer.isInput]
  split at h <;> first | contradiction | (injection h with h; subst h; simp_all)

/-- The artifacts of a layer stand in the slots of its name. -/
theorem map_path_of_layerRendered {s : Scope} {h : Handle} {n : Node} {as : List Artifact}
    (hn : s.graph.get? h = some n) (hr : LayerRendered s h as) :
    as.map Artifact.path = (slotsOf n).map fun x => x.1.path x.2 := by
  cases hr with
  | input hn' hfamily =>
      obtain rfl := Option.some.inj (hn.symm.trans hn')
      rw [slotsOf, isInput_of_family? hfamily]
      rfl
  | computed hn' hfamily _ has =>
      obtain rfl := Option.some.inj (hn.symm.trans hn')
      rw [map_path_of_rendered has, slotsOf, isInput_of_family? hfamily, layerFiles]
      cases n.layer.hasWeights <;> rfl

theorem map_path_of_layersRendered {s : Scope} {hs : List Handle} {layers : List (List Artifact)}
    {ns : List Node} (hl : List.Forall₂ (LayerRendered s) hs layers)
    (hns : hs.mapM s.graph.node = .ok ns) :
    layers.flatten.map Artifact.path = (ns.flatMap slotsOf).map fun x => x.1.path x.2 := by
  rw [mapM_eq_ok] at hns
  induction hl generalizing ns with
  | nil =>
      rw [List.forall₂_nil_left_iff.mp hns]
      rfl
  | cons hr _ ih =>
      obtain ⟨n, rest, hn, hrest, rfl⟩ := List.forall₂_cons_left_iff.mp hns
      rw [List.flatten_cons, List.map_append, List.flatMap_cons, List.map_append, ih hrest,
        map_path_of_layerRendered (Graph.node_eq_ok.mp hn) hr]

/-- The paths of the bundle are those of its slots, in order. -/
theorem map_path_of_emitted {s : Scope} {as leading trailing : List Artifact}
    {layers : List (List Artifact)} {ns : List Node} (he : Emitted s as leading layers trailing)
    (hns : s.graph.nodes = .ok ns) :
    as.map Artifact.path = (slots ns).map fun x => x.1.path x.2 := by
  rw [he.eq_append, List.map_append, List.map_append, map_path_of_layersRendered he.layers hns,
    map_path_of_rendered he.leading, map_path_of_rendered he.trailing, slots, List.map_append,
    List.map_append]
  rfl

/-! ## Equal paths -/

/-- The slots of a layer carry its name, and the input layer has none. -/
theorem mem_slotsOf {n : Node} {x : Slot × String} (hx : x ∈ slotsOf n) :
    x.2 = n.name ∧ n.layer.isInput = false := by
  rw [slotsOf] at hx
  split at hx
  · contradiction
  · next hinput =>
    refine ⟨?_, by simpa using hinput⟩
    split at hx <;> simp at hx <;> grind

theorem header_mem_slotsOf {n : Node} (hn : n.layer.isInput = false) :
    (Slot.header, n.name) ∈ slotsOf n := by
  simp [slotsOf, hn]

theorem nodup_slotsOf (n : Node) : (slotsOf n).Nodup := by
  rw [slotsOf]
  split
  · exact List.nodup_nil
  · split <;> simp

/-- Layers of distinct names have distinct slots. -/
theorem pairwise_slotsOf {ns : List Node} (hns : (ns.map Node.name).Nodup) :
    (ns.flatMap slotsOf).Nodup := by
  refine List.nodup_flatMap.mpr ⟨fun n _ => nodup_slotsOf n, ?_⟩
  refine (List.pairwise_map.mp hns).imp fun hne x hx hy => hne ?_
  rw [← (mem_slotsOf hx).1, (mem_slotsOf hy).1]

/-- The slots of the model carry reserved names. -/
theorem mem_reserved {x : Slot × String} (hx : x ∈ leadingSlots ++ trailingSlots) :
    x.2 ∈ reserved :=
  (by decide : ∀ x ∈ leadingSlots ++ trailingSlots, x.2 ∈ reserved) x hx

/-- Two files have one name and one place exactly when a layer is called by a name of the whole
model. -/
theorem nodup_slots_iff {ns : List Node} (hns : (ns.map Node.name).Nodup) :
    (slots ns).Nodup ↔ ∀ n ∈ ns, n.layer.isInput = false → n.name ∉ reserved := by
  have hlayers := pairwise_slotsOf hns
  constructor
  · intro hnd n hn hinput hname
    have hmem : (Slot.header, n.name) ∈ ns.flatMap slotsOf :=
      List.mem_flatMap.mpr ⟨n, hn, header_mem_slotsOf hinput⟩
    have hbefore : (Slot.header, n.name) ∉ leadingSlots := fun hlead =>
      (List.nodup_append.mp (List.nodup_append.mp hnd).1).2.2 _ hlead _ hmem rfl
    have hbehind : (Slot.header, n.name) ∉ trailingSlots := fun htrail =>
      (List.nodup_append.mp hnd).2.2 _ (List.mem_append_right _ hmem) _ htrail rfl
    simp [reserved, leadingSlots, trailingSlots] at hname hbefore hbehind
    grind
  · intro hfree
    have hdisjoint : ∀ x ∈ ns.flatMap slotsOf, x.2 ∉ reserved := by
      intro x hx
      obtain ⟨n, hn, hx⟩ := List.mem_flatMap.mp hx
      obtain ⟨hname, hinput⟩ := mem_slotsOf hx
      rw [hname]
      exact hfree n hn hinput
    have hapart : ∀ x ∈ leadingSlots, x ∉ trailingSlots := by decide
    refine List.nodup_append.mpr ⟨List.nodup_append.mpr ⟨by decide, hlayers, ?_⟩, by decide, ?_⟩
    · rintro x hx y hy rfl
      exact hdisjoint x hy (mem_reserved (List.mem_append_left _ hx))
    · rintro x hx y hy rfl
      rcases List.mem_append.mp hx with hx | hx
      · exact hapart x hx hy
      · exact hdisjoint x hx (mem_reserved (List.mem_append_right _ hy))

theorem isWord_of_mem_slots {ns : List Node} (hns : ∀ n ∈ ns, IsWord n.name)
    {x : Slot × String} (hx : x ∈ slots ns) : IsWord x.2 := by
  have hall : ∀ name ∈ reserved, name.toList.all Simplify.isIdentifierChar = true := by decide
  have hreserved : ∀ name ∈ reserved, IsWord name := fun name hname =>
    List.all_eq_true.mp (hall name hname)
  rcases List.mem_append.mp hx with hx | hx
  · rcases List.mem_append.mp hx with hx | hx
    · exact hreserved _ (mem_reserved (List.mem_append_left _ hx))
    · obtain ⟨n, hn, hx⟩ := List.mem_flatMap.mp hx
      rw [(mem_slotsOf hx).1]
      exact hns n hn
  · exact hreserved _ (mem_reserved (List.mem_append_right _ hx))

/-- Paths are distinct exactly if slots are. -/
theorem nodup_paths_iff {ns : List Node} (hns : ∀ n ∈ ns, IsWord n.name) :
    ((slots ns).map fun x => x.1.path x.2).Nodup ↔ (slots ns).Nodup := by
  refine ⟨List.Nodup.of_map _, List.Nodup.map_on fun x hx y hy hxy => ?_⟩
  exact Prod.ext_iff.mpr
    ((path_inj (isWord_of_mem_slots hns hx) (isWord_of_mem_slots hns hy)).mp hxy)

/-! ## Headers of one path -/

def guardLines (name : String) : List String :=
  [s!"#ifndef {guard name}", s!"#define {guard name}", ""]

theorem engine_eq_ok {t : Template} {s : Scope} {text : String} :
    engine t s = .ok text ↔ ∃ code, C.code t s = .ok code ∧ render code = text := by
  rw [engine, bind_eq_ok]
  simp [pure, Except.pure]

/-- A header starts with its guard. -/
theorem render_guarded {name start more : String} (hstart : start ≠ "") (rest : Code) :
    render (lines (guardLines name ++ [start ++ more]) ++ rest) =
      render (lines (guardLines name)) ++ (start ++ (more ++ "\n" ++ render rest)) := by
  have hempty : start ++ more ≠ "" := by simp [hstart]
  rw [lines, List.map_append, List.append_assoc, render_append, render_append]
  simp [render, lines, Line.render, hempty, String.append_assoc]

/-- Two headers under one guard differ when they go on with different words. -/
theorem render_guarded_ne {name start start' more more' : String} {rest rest' : Code}
    (hlen : start.toList.length = 5) (hlen' : start'.toList.length = 5) (hne : start ≠ start') :
    render (lines (guardLines name ++ [start ++ more]) ++ rest) ≠
      render (lines (guardLines name ++ [start' ++ more']) ++ rest') := by
  have hempty : ∀ text : String, text.toList.length = 5 → text ≠ "" := by
    rintro text htext rfl
    simp at htext
  intro heq
  rw [render_guarded (hempty start hlen), render_guarded (hempty start' hlen'),
    String.append_right_inj] at heq
  have hlist := congrArg String.toList heq
  rw [String.toList_append (s := start), String.toList_append (s := start')] at hlist
  exact hne (String.toList_inj.mp (List.append_inj_left hlist (hlen.trans hlen'.symm)))

/-- The header of a layer starts with its guard. -/
theorem layerHeader_eq (l : BoundLayer) : ∃ rest,
    layerHeader l = lines (guardLines l.name ++ ["#ifnd" ++ "ef SINGLE_FILE"]) ++ rest :=
  ⟨(layerHeader l).drop 4, rfl⟩

/-- The templates of the headers of the whole model, with their names. -/
def modelHeaders : List (Template × String) :=
  [(.defines, "defines"), (.numbers, "number"), (.modelHeader, "model")]

/-- Each header of the model starts with its guard. -/
theorem modelHeader_eq {t : Template} {name : String} {s : Scope} {code : Code}
    (ht : (t, name) ∈ modelHeaders) (hcode : C.code t s = .ok code) :
    ∃ start ∈ ["#defi", "#incl", "#ifde"], ∃ more rest,
      code = lines (guardLines name ++ [start ++ more]) ++ rest := by
  simp only [modelHeaders, List.mem_cons, Prod.mk.injEq, List.not_mem_nil, or_false] at ht
  rcases ht with ⟨rfl, rfl⟩ | ⟨rfl, rfl⟩ | ⟨rfl, rfl⟩
  · obtain ⟨nodes, -, hcode⟩ := bind_eq_ok.mp hcode
    obtain ⟨layers, -, hcode⟩ := bind_eq_ok.mp hcode
    obtain ⟨sizes, -, hcode⟩ := bind_eq_ok.mp hcode
    injection hcode with hcode
    have hguard : guardLines "defines" = ["#ifndef _DEFINES_H_", "#define _DEFINES_H_", ""] := by
      decide +kernel
    have hfirst : "#define MODEL_ACTIVATION_POOLS " ++ toString s.plan.pools.length =
        "#defi" ++ ("ne MODEL_ACTIVATION_POOLS " ++ toString s.plan.pools.length) := by
      rw [← String.append_assoc]
      rfl
    refine ⟨"#defi", by simp, "ne MODEL_ACTIVATION_POOLS " ++ toString s.plan.pools.length,
      code.drop 4, ?_⟩
    rw [hguard, ← hfirst, ← hcode]
    rfl
  · injection hcode with hcode
    have hguard : guardLines "number" = ["#ifndef _NUMBER_H_", "#define _NUMBER_H_", ""] := by
      decide +kernel
    refine ⟨"#incl", by simp, "ude <stdint.h>", code.drop 4, ?_⟩
    rw [hguard, ← hcode]
    rfl
  · obtain ⟨e, -, hcode⟩ := bind_eq_ok.mp hcode
    obtain ⟨layers, -, hcode⟩ := bind_eq_ok.mp hcode
    injection hcode with hcode
    have hguard : guardLines "model" = ["#ifndef _MODEL_H_", "#define _MODEL_H_", ""] := by
      decide +kernel
    refine ⟨"#ifde", by simp, "f __cplusplus", code.drop 4, ?_⟩
    rw [hguard, ← hcode]
    rfl

theorem node_of_bind {t : Template} {s : Scope} {h : Handle} {n : Node} {l : BoundLayer}
    (hl : BoundLayer.bind t s = .ok l) (hlayer : s.layer = some h)
    (hn : s.graph.get? h = some n) : l.node = n := by
  simp only [BoundLayer.bind, hlayer, Option.bind_some, hn] at hl
  obtain ⟨q, -, hl⟩ := bind_eq_ok.mp hl
  obtain ⟨operands, -, hl⟩ := bind_eq_ok.mp hl
  injection hl with hl
  rw [← hl]

/-- The header of a layer is not the header of the model that has its path. -/
theorem layerHeader_ne_modelHeader {t : Template} {family : String} {s s' : Scope} {h : Handle}
    {n : Node} {x y : String} (ht : (t, n.name) ∈ modelHeaders)
    (hx : engine (.layerHeader family) s' = .ok x) (hy : engine t s = .ok y)
    (hlayer : s'.layer = some h) (hn : s'.graph.get? h = some n) : x ≠ y := by
  obtain ⟨codeX, hcodeX, rfl⟩ := engine_eq_ok.mp hx
  obtain ⟨codeY, hcodeY, rfl⟩ := engine_eq_ok.mp hy
  obtain ⟨l, hl, hcodeX⟩ := bind_eq_ok.mp hcodeX
  injection hcodeX with hcodeX
  obtain ⟨restX, hheader⟩ := layerHeader_eq l
  obtain ⟨start, hstart, more, restY, hcodeY⟩ := modelHeader_eq ht hcodeY
  have hname : l.name = n.name := congrArg Node.name (node_of_bind hl hlayer hn)
  have hstarts : ∀ start ∈ ["#defi", "#incl", "#ifde"],
      start.toList.length = 5 ∧ "#ifnd" ≠ start := by decide
  rw [← hcodeX, hheader, hcodeY, hname]
  exact render_guarded_ne (by decide) (hstarts start hstart).1 (hstarts start hstart).2

/-- The files of a layer that is no input are among those of the model. -/
theorem Emitted.exists_files {s : Scope} {as leading trailing : List Artifact}
    {layers : List (List Artifact)} {h : Handle} {n : Node}
    (he : Emitted s as leading layers trailing) (hh : h ∈ s.graph.order)
    (hn : s.graph.get? h = some n) (hinput : n.layer.isInput = false) :
    ∃ family weights, weightArrays n.layer = .ok weights ∧
      ∀ file ∈ layerFiles n.layer family, ∃ a ∈ as,
        Rendered { s with layer := some h, weights := weights } file a := by
  obtain ⟨files, hfiles, hrendered⟩ := exists_mem_of_forall₂ he.layers hh
  cases hrendered with
  | input hn' hfamily =>
      obtain rfl := Option.some.inj (hn.symm.trans hn')
      rw [isInput_of_family? hfamily] at hinput
      contradiction
  | @computed m family weights _ hn' hfamily hweights has =>
      obtain rfl := Option.some.inj (hn.symm.trans hn')
      refine ⟨family, weights, hweights, fun file hfile => ?_⟩
      obtain ⟨a, ha, hra⟩ := exists_mem_of_forall₂ has hfile
      refine ⟨a, ?_, hra⟩
      rw [he.eq_append]
      exact List.mem_append_left _ (List.mem_append_right _ (List.mem_flatten.mpr ⟨_, hfiles, ha⟩))

/-- A layer called by a name of the whole model has a header in the place of another file. -/
theorem exists_clash {s : Scope} {as leading trailing : List Artifact}
    {layers : List (List Artifact)} {h : Handle} {n : Node}
    (he : Emitted s as leading layers trailing) (hh : h ∈ s.graph.order)
    (hn : s.graph.get? h = some n) (hinput : n.layer.isInput = false)
    (hname : n.name ∈ reserved) :
    ∃ a ∈ as, ∃ b ∈ as, a.path = b.path ∧ a.contents ≠ b.contents := by
  have hfile : ∀ name ∈ reserved, ∃ t, (t, name) ∈ modelHeaders ∧
      (Slot.header.path name, t) ∈ leadingFiles ++ trailingFiles := by
    simp only [reserved, List.forall_mem_cons]
    exact ⟨⟨.defines, by decide⟩, ⟨.numbers, by decide⟩, ⟨.modelHeader, by decide⟩, by simp⟩
  obtain ⟨t, ht, hmem⟩ := hfile n.name hname
  obtain ⟨b, hb, hrb⟩ : ∃ b ∈ leading ++ trailing, Rendered s (Slot.header.path n.name, t) b :=
    exists_mem_of_forall₂ (List.rel_append he.leading he.trailing) hmem
  obtain ⟨family, weights, -, hfiles⟩ := he.exists_files hh hn hinput
  obtain ⟨a, ha, hra⟩ := hfiles _ (List.mem_append_left _ List.mem_cons_self)
  refine ⟨a, ha, b, ?_, hra.path_eq.trans hrb.path_eq.symm,
    layerHeader_ne_modelHeader ht hra.contents_eq hrb.contents_eq rfl hn⟩
  rw [he.eq_append]
  rcases List.mem_append.mp hb with hb | hb
  · exact List.mem_append_left _ (List.mem_append_left _ hb)
  · exact List.mem_append_right _ hb

/-! ## Writing -/

/-- The paths of the files below a directory are within the limits of a file system. -/
def WithinLimits (dir : String) (as : List Artifact) : Prop :=
  ∀ a ∈ as, (Path.join dir a.path).utf8ByteSize ≤ Tree.pathLimit ∧
    ∀ name ∈ Path.pieces a.path, name.utf8ByteSize ≤ Tree.nameLimit

/-- No layer that files are generated for is called by a name of the whole model. -/
def FreeOfReserved (g : Graph) : Prop :=
  ∀ h n, g.get? h = some n → n.layer.isInput = false → n.name ∉ reserved

/-- A path within the limits can be stored under an empty directory. -/
theorem storable_path {t : Tree} {dir : String} {place : Place} {slot : Slot} {name : String}
    (ht : t.EmptyDirectory dir place) (hname : IsWord name)
    (hlong : (Path.join dir (slot.path name)).utf8ByteSize ≤ Tree.pathLimit)
    (hshort : ∀ piece ∈ Path.pieces (slot.path name), piece.utf8ByteSize ≤ Tree.nameLimit) :
    Tree.Storable dir (slot.path name) where
  names := by
    intro piece hpiece
    rw [pieces_path slot hname] at hpiece hshort
    exact isName_of_mem_place hpiece (hshort piece hpiece)
  fits := by
    refine Tree.pathFault?_join (Tree.of_locateExisting ht.located).1 ?_ hlong
    have hnul := hname.nul
    cases slot <;> simp [Slot.path, hnul]

/-- No path of the bundle stands in the way of another. -/
theorem compatible_paths {t : Tree} {dir : String} {place : Place} {ns : List Node}
    {as : List Artifact} (ht : t.EmptyDirectory dir place) (hns : ∀ n ∈ ns, IsWord n.name)
    (hpaths : as.map Artifact.path = (slots ns).map fun x => x.1.path x.2)
    (hlimits : WithinLimits dir as) : Tree.Compatible dir (as.map Artifact.path) where
  storable := by
    intro path hpath
    obtain ⟨a, ha, rfl⟩ := List.mem_map.mp hpath
    rw [hpaths] at hpath
    obtain ⟨x, hx, hxa⟩ := List.mem_map.mp hpath
    obtain ⟨hlong, hshort⟩ := hlimits a ha
    rw [← hxa] at hlong hshort ⊢
    exact storable_path ht (isWord_of_mem_slots hns hx) hlong hshort
  apart := by
    intro p hp q hq hbegins
    rw [hpaths] at hp hq
    obtain ⟨x, hx, rfl⟩ := List.mem_map.mp hp
    obtain ⟨y, hy, rfl⟩ := List.mem_map.mp hq
    have hxword := isWord_of_mem_slots hns hx
    have hyword := isWord_of_mem_slots hns hy
    rw [pieces_path _ hxword, pieces_path _ hyword] at hbegins
    obtain ⟨hslot, hname⟩ := place_inj (place_eq_of_isPrefix hbegins)
    rw [hslot, hname]

theorem mem_nodes_iff {g : Graph} {ns : List Node} (hg : g.Linked) (hns : g.nodes = .ok ns)
    {n : Node} : n ∈ ns ↔ ∃ h, g.get? h = some n := by
  have hall := mapM_eq_ok.mp hns
  constructor
  · intro hn
    obtain ⟨h, hnode⟩ := exists_of_forall₂_of_mem hall hn
    exact ⟨h, Graph.node_eq_ok.mp hnode⟩
  · rintro ⟨h, hn⟩
    obtain ⟨m, hm, hnode⟩ := exists_mem_of_forall₂ hall (hg.mem_of_get? hn)
    obtain rfl := Option.some.inj (hn.symm.trans (Graph.node_eq_ok.mp hnode))
    exact hm

/-- A graph is free of reserved names exactly if its computed layers are. -/
theorem freeOfReserved_iff {g : Graph} {ns : List Node} (hg : g.Linked)
    (hns : g.nodes = .ok ns) :
    FreeOfReserved g ↔ ∀ n ∈ ns, n.layer.isInput = false → n.name ∉ reserved := by
  simp only [FreeOfReserved, mem_nodes_iff hg hns, forall_exists_index]
  exact forall_comm

/-- Files written into an empty directory are all read back exactly when no layer is called by a
name of the whole model. -/
theorem lossless_iff {s : Scope} {as leading trailing : List Artifact}
    {layers : List (List Artifact)} {ns : List Node} {t : Tree} {dir : String} {place : Place}
    (hg : s.graph.Linked) (he : Emitted s as leading layers trailing)
    (hns : s.graph.nodes = .ok ns) (hwords : ∀ n ∈ ns, IsWord n.name)
    (hdistinct : (ns.map Node.name).Nodup) (ht : t.EmptyDirectory dir place)
    (hlimits : WithinLimits dir as) :
    ∃ t', Tree.disk.writeAll dir as t = (.ok (), t') ∧
      ((∀ a ∈ as, Tree.disk.readText (Path.join dir a.path) t' = (.ok a.contents, t')) ↔
        FreeOfReserved s.graph) := by
  have hpaths := map_path_of_emitted he hns
  obtain ⟨t', hwrite, hlast⟩ := Tree.writeAll_last ht (compatible_paths ht hwords hpaths hlimits)
  refine ⟨t', hwrite, fun hread h n hn hinput hname => ?_, fun hfree a ha => ?_⟩
  · -- what is read back from one path would be the contents of two files
    obtain ⟨a, ha, b, hb, hpath, hcontents⟩ :=
      exists_clash he (hg.mem_of_get? hn) hn hinput hname
    have hboth := (hread a ha).symm.trans (hpath ▸ hread b hb)
    injection hboth with hboth
    injection hboth with hboth
    exact hcontents hboth
  · -- every file is the last one that is written to its path
    have hnd : (as.map Artifact.path).Nodup := by
      rw [hpaths, nodup_paths_iff hwords, nodup_slots_iff hdistinct]
      exact (freeOfReserved_iff hg hns).mp hfree
    obtain ⟨front, back, hsplit⟩ := List.append_of_mem ha
    refine hlast front a back hsplit fun b hb heq => ?_
    rw [hsplit, List.map_append, List.map_cons] at hnd
    have hnot := (List.nodup_cons.mp (List.nodup_append.mp hnd).2.1).1
    exact hnot (heq ▸ List.mem_map_of_mem hb)

end Emit

/-! ## Compilations -/

theorem Graph.Recast.nameOf_eq {g g' : Graph} (h : g.Recast g') (k : Handle) :
    g'.nameOf k = g.nameOf k := by
  have hname := congrArg (Option.map Node.name) (h.outline_eq k)
  rw [Option.map_map, Option.map_map] at hname
  rw [nameOf, nameOf]
  exact congrArg (·.getD "") hname

/-- The layers that files are generated for have distinct identifiers for names. -/
theorem Compiled.names {w v : Workspace} {c : Compilation} (hc : Compiled w c v) :
    ∃ ns, v.graph.nodes = .ok ns ∧ (∀ n ∈ ns, IsWord n.name) ∧ (ns.map Node.name).Nodup := by
  obtain ⟨v₁, v₂, ha, ho, hrecast⟩ := hc.optimized
  have hsettled := Simplify.settled_of_optimize ha.framed.toLinked ho
  have hnameOf : v.graph.nameOf = v₂.graph.nameOf := funext hrecast.nameOf_eq
  obtain ⟨ns, hns⟩ := exists_mapM_eq_ok (f := v.graph.node) fun h hh => by
    obtain ⟨n, hn⟩ := hc.prepared.exists_get? hh
    exact ⟨n, Graph.node_eq_ok.mpr hn⟩
  refine ⟨ns, hns, fun n hn => ?_, ?_⟩
  · obtain ⟨h, hget⟩ := (Emit.mem_nodes_iff hc.prepared.toLinked hns).mp hn
    have hh := hc.prepared.mem_of_get? hget
    rw [hrecast.order_eq] at hh
    obtain ⟨m, hm, -, hword⟩ := hsettled.named h hh
    have hname : n.name = m.name := by
      rw [← Graph.nameOf_of_get? hget, hnameOf, Graph.nameOf_of_get? hm]
    rw [hname, ← hword]
    exact Simplify.isWord_identifier m.name
  · rw [Graph.map_name_of_mapM hns, hnameOf, hrecast.order_eq]
    exact hsettled.distinct

section Files

variable {w v : Workspace} {c : Compilation} (hc : Compiled w c v)

include hc

/-- The paths of a compiled bundle are distinct exactly if no layer has a reserved name. -/
theorem Compiled.nodup_paths_iff :
    (c.bundle.artifacts.map Artifact.path).Nodup ↔ Emit.FreeOfReserved v.graph := by
  obtain ⟨ns, hns, hwords, hdistinct⟩ := hc.names
  obtain ⟨leading, layers, trailing, he⟩ := hc.emitted
  rw [Emit.map_path_of_emitted he hns, Emit.nodup_paths_iff hwords,
    Emit.nodup_slots_iff hdistinct, Emit.freeOfReserved_iff hc.prepared.toLinked hns]

/-- Every artifact is read back from the directory it was written to exactly if no layer has a
reserved name. -/
theorem Compiled.lossless_iff {t : Tree} {dir : String} {place : Place}
    (ht : t.EmptyDirectory dir place) (hlimits : Emit.WithinLimits dir c.bundle.artifacts) :
    ∃ t', Tree.disk.writeBundle dir c.bundle t = (.ok (), t') ∧
      ((∀ a ∈ c.bundle.artifacts,
        Tree.disk.readText (Path.join dir a.path) t' = (.ok a.contents, t')) ↔
        Emit.FreeOfReserved v.graph) := by
  obtain ⟨ns, hns, hwords, hdistinct⟩ := hc.names
  obtain ⟨leading, layers, trailing, he⟩ := hc.emitted
  exact Emit.lossless_iff hc.prepared.toLinked he hns hwords hdistinct ht hlimits

end Files

/-- The files of a compilation have distinct paths exactly when no layer is called by a name of the
whole model.  Within the limits of the file system they are written into every empty directory;
afterwards the path of every file holds its contents exactly under the same condition. -/
theorem paths_nodup_and_lossless_iff {text : String} {g : Graph} (hp : Model.parse text = .ok g)
    {format : NumberFormat} {table : Option Calibration.Table} {session : Session}
    {c : Compilation} {w : Workspace} (hc : compile format table ⟨g, session⟩ = .ok c w) :
    ((c.bundle.artifacts.map Artifact.path).Nodup ↔ Emit.FreeOfReserved w.graph) ∧
      ∀ (t : Tree) (dir : String) (place : Place), t.EmptyDirectory dir place →
        Emit.WithinLimits dir c.bundle.artifacts →
        ∃ t', Tree.disk.writeBundle dir c.bundle t = (.ok (), t') ∧
          ((∀ a ∈ c.bundle.artifacts,
            Tree.disk.readText (Path.join dir a.path) t' = (.ok a.contents, t')) ↔
            Emit.FreeOfReserved w.graph) :=
  ⟨(compiled_of_parse hp hc).nodup_paths_iff, fun _ _ _ ht hlimits =>
    (compiled_of_parse hp hc).lossless_iff ht hlimits⟩

namespace Emit

/-- The paths of the files of a compilation that has ended. -/
def paths? : EStateM.Result Failure Workspace Compilation → Option (List String)
  | .ok c _ => some (c.bundle.artifacts.map Artifact.path)
  | .error _ _ => none

theorem exists_of_paths? {r : EStateM.Result Failure Workspace Compilation} {paths : List String}
    (h : paths? r = some paths) :
    ∃ c w, r = .ok c w ∧ c.bundle.artifacts.map Artifact.path = paths := by
  cases r with
  | ok c w => exact ⟨c, w, rfl, Option.some.inj h⟩
  | error _ _ => contradiction

/-- The directory that paths start from, before anything is in it. -/
theorem emptyDirectory_empty : Tree.empty.EmptyDirectory "." [] :=
  ⟨Tree.locateExisting_of_locate (by decide +kernel) rfl fun _ => rfl,
    fun q hq => by simp [Tree.get?, Tree.empty, hq]⟩

theorem withinLimits_of_paths {as : List Artifact} {paths : List String}
    (h : as.map Artifact.path = paths)
    (hall : ∀ path ∈ paths, (Path.join "." path).utf8ByteSize ≤ Tree.pathLimit ∧
      ∀ name ∈ Path.pieces path, name.utf8ByteSize ≤ Tree.nameLimit) : WithinLimits "." as :=
  fun a ha => hall a.path (h ▸ List.mem_map_of_mem ha)

/-- A layer whose name is no identifier. -/
def hyphenatedText : String :=
  "x = input() -> [1, 2]\nfc-1 = dense(x) -> [1, 1]\nfc-1.kernel [1, 2] = 1 2"

def hyphenated : Graph where
  slots := [some ⟨.source "x" [1, 2], none, [], [1]⟩,
    some ⟨⟨"fc-1", [[1, 2]], [[1, 1]], .float32,
      .dense ⟨1, .linear, ⟨[1, 2], .f32 [1, 2]⟩, none⟩⟩, none, [0], []⟩]
  order := [0, 1]

set_option maxRecDepth 2000 in
theorem parse_hyphenatedText : Model.parse hyphenatedText = .ok hyphenated :=
  Model.parse_of_toList String.toList_ofList (by decide +kernel)

theorem paths?_hyphenated : paths? (compile .float32 none ⟨hyphenated, {}⟩) =
    some ["include/defines.h", "include/number.h", "include/fc1.h", "fc1.c", "weights/fc1.c",
      "include/model.h", "model.c"] := by
  decide +kernel

end Emit

/-- A layer with a hyphen in its name is written and read back without loss. -/
theorem lossless_hyphenated :
    ∃ c w, Model.parse Emit.hyphenatedText = .ok Emit.hyphenated ∧
      compile .float32 none ⟨Emit.hyphenated, {}⟩ = .ok c w ∧
      Emit.WithinLimits "." c.bundle.artifacts ∧
      (c.bundle.artifacts.map Artifact.path).Nodup ∧
      ∃ t', Tree.disk.writeBundle "." c.bundle .empty = (.ok (), t') ∧
        ∀ a ∈ c.bundle.artifacts,
          Tree.disk.readText (Path.join "." a.path) t' = (.ok a.contents, t') := by
  obtain ⟨c, w, hc, hpaths⟩ := Emit.exists_of_paths? Emit.paths?_hyphenated
  have hlimits := Emit.withinLimits_of_paths hpaths (by decide +kernel)
  obtain ⟨hnodup, hwritten⟩ := paths_nodup_and_lossless_iff Emit.parse_hyphenatedText hc
  have hdistinct : (c.bundle.artifacts.map Artifact.path).Nodup := by
    rw [hpaths]
    decide
  obtain ⟨t', hwrite, hread⟩ := hwritten .empty "." [] Emit.emptyDirectory_empty hlimits
  exact ⟨c, w, Emit.parse_hyphenatedText, hc, hlimits, hdistinct, t', hwrite,
    hread.mpr (hnodup.mp hdistinct)⟩

namespace Emit

/-- A layer called by the name of the whole model. -/
def ownNameText : String := "x = input() -> [1, 2]\nmodel = flatten(x) -> [1, 2]\n"

def ownName : Graph where
  slots := [some ⟨.source "x" [1, 2], none, [], [1]⟩,
    some ⟨⟨"model", [[1, 2]], [[1, 2]], .float32, .flatten⟩, none, [0], []⟩]
  order := [0, 1]

theorem parse_ownNameText : Model.parse ownNameText = .ok ownName :=
  Model.parse_of_toList String.toList_ofList (by decide +kernel)

theorem paths?_ownName : paths? (compile .float32 none ⟨ownName, {}⟩) =
    some ["include/defines.h", "include/number.h", "include/model.h", "model.c",
      "include/model.h", "model.c"] := by
  decide +kernel

end Emit

/-- Header and source of the layer are overwritten by those of the model. -/
theorem lost_ownName :
    ∃ c w, Model.parse Emit.ownNameText = .ok Emit.ownName ∧
      compile .float32 none ⟨Emit.ownName, {}⟩ = .ok c w ∧
      ¬ (c.bundle.artifacts.map Artifact.path).Nodup ∧
      ∃ t', Tree.disk.writeBundle "." c.bundle .empty = (.ok (), t') ∧
        ∃ a ∈ c.bundle.artifacts,
          Tree.disk.readText (Path.join "." a.path) t' ≠ (.ok a.contents, t') := by
  obtain ⟨c, w, hc, hpaths⟩ := Emit.exists_of_paths? Emit.paths?_ownName
  have hlimits := Emit.withinLimits_of_paths hpaths (by decide +kernel)
  have hcompiled := compiled_of_parse Emit.parse_ownNameText hc
  have hclash : ¬ (c.bundle.artifacts.map Artifact.path).Nodup := by
    rw [hpaths]
    decide
  obtain ⟨t', hwrite, hread⟩ := hcompiled.lossless_iff Emit.emptyDirectory_empty hlimits
  refine ⟨c, w, Emit.parse_ownNameText, hc, hclash, t', hwrite, ?_⟩
  by_contra hkept
  refine hclash (hcompiled.nodup_paths_iff.mpr (hread.mp fun a ha => ?_))
  by_contra hlost
  exact hkept ⟨a, ha, hlost⟩

end NeuralC
