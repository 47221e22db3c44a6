import NeuralC.Proofs.Graph.Contract
import NeuralC.Proofs.Graph.Histories
import NeuralC.Proofs.Model.Document

/-!
# NeuralC.Proofs.Model.Build

The graph of a model description.  Layers enter the graph one by one, so the
handle of a layer is the number of layers declared in front of it.  `Declares`
says what the node of a declared layer is: its operands are the layers that its
line names, and the shapes it reads are the shapes that those declare.  `Built`
says it of the whole graph; adding a layer keeps it (`Built.addLayer`), and so
it holds of every graph that is read (`built_of_parse`).
-/

namespace NeuralC.Model

open NeuralC.Text

/-! ## Kinds -/

/-- Only the first line declares an input. -/
theorem ne_input_of_layerKind {l : LayerLine} {weights : List WeightLine} {kind : LayerKind}
    (h : l.layerKind weights = .ok kind) : kind ≠ .input := by
  rintro rfl
  unfold LayerLine.layerKind at h
  split at h
  all_goals
    repeat obtain ⟨_, _, h⟩ := bind_eq_ok.mp h
  all_goals cases h

/-! ## Operands -/

/-- A name that is found is the name of a layer. -/
theorem find?_eq_some {g : Graph} {name : String} {h : Handle} (hf : g.find? name = some h) :
    ∃ n, g.get? h = some n ∧ n.name = name := by
  have hfound := List.find?_some hf
  cases hn : g.get? h with
  | none => simp [hn] at hfound
  | some n => exact ⟨n, rfl, by simpa [hn] using hfound⟩

/-- A name that is not found is the name of none. -/
theorem name_ne_of_find?_eq_none {g : Graph} {name : String} (hf : g.find? name = none)
    {h : Handle} {n : Node} (hh : h ∈ g.order) (hn : g.get? h = some n) : n.name ≠ name := by
  have hmiss := List.find?_eq_none.mp hf h hh
  simpa [hn] using hmiss

/-- An operand is found by its name. -/
theorem operand_eq_ok {g : Graph} {l : LayerLine} {name : String} {h : Handle}
    (hop : operand g l name = .ok h) : g.find? name = some h := by
  rw [operand] at hop
  split at hop
  · next hfound =>
    cases hop
    exact hfound
  · cases hop

/-! ## Declared layers -/

/-- The node that the `i`-th of some declared layers becomes. -/
structure Declares (ls : List LayerLine) (weights : List WeightLine) (i : Nat) (l : LayerLine)
    (n : Node) : Prop where
  name : n.name = l.name
  outputShapes : n.layer.outputShapes = [l.output]
  /-- The first layer is an input and reads nothing. -/
  input : i = 0 → n.layer.isInput = true ∧ n.preds = [] ∧ l.kind = "input"
  /-- The kind of any other layer is the one that its line asks for. -/
  kind : i ≠ 0 → l.layerKind weights = .ok n.layer.kind
  /-- Any other layer reads something. -/
  preds_ne_nil : i ≠ 0 → n.preds ≠ []
  /-- The operands are the layers that the line names, each declared earlier. -/
  operands : List.Forall₂ (fun name p => p < i ∧ ls[p]?.map (·.name) = some name) l.inputs n.preds
  /-- The shapes that are read are the shapes that the operands declare. -/
  inputShapes : i ≠ 0 → n.layer.inputShapes.map some = n.preds.map fun p => ls[p]?.map (·.output)

/-- An operand is declared before its reader. -/
theorem Declares.lt_of_mem {ls : List LayerLine} {weights : List WeightLine} {i : Nat}
    {l : LayerLine} {n : Node} (hn : Declares ls weights i l n) {p : Handle} (hp : p ∈ n.preds) :
    p < i := by
  obtain ⟨name, hname⟩ := exists_of_forall₂_of_mem hn.operands hp
  exact hname.1

/-- More layers behind it do not change what a layer becomes. -/
theorem Declares.append {ls : List LayerLine} {weights : List WeightLine} {i : Nat} {l : LayerLine}
    {n m : Node} (hn : Declares ls weights i l n) (hi : i ≤ ls.length) (hlayer : m.layer = n.layer)
    (hpreds : m.preds = n.preds) (more : List LayerLine) :
    Declares (ls ++ more) weights i l m := by
  have hsame : ∀ p < i, (ls ++ more)[p]? = ls[p]? :=
    fun p hp => List.getElem?_append_left (by omega)
  refine ⟨?_, hlayer ▸ hn.outputShapes, ?_, ?_, ?_, ?_, ?_⟩
  · rw [Node.name, hlayer]
    exact hn.name
  · rw [hlayer, hpreds]
    exact hn.input
  · rw [hlayer]
    exact hn.kind
  · rw [hpreds]
    exact hn.preds_ne_nil
  · rw [hpreds]
    exact hn.operands.imp fun name p hp => ⟨hp.1, hsame p hp.1 ▸ hp.2⟩
  · intro hne
    rw [hlayer, hpreds, hn.inputShapes hne]
    exact List.map_congr_left fun p hp => by rw [hsame p (hn.lt_of_mem hp)]

/-- The graph of some declared layers: slot by slot the nodes they become. -/
structure Built (ls : List LayerLine) (weights : List WeightLine) (g : Graph) : Prop
    extends g.WellFormed where
  order_eq : g.order = List.range ls.length
  fresh_eq : g.fresh = ls.length
  names : (ls.map (·.name)).Nodup
  declares : ∀ {i : Nat} {l : LayerLine}, ls[i]? = some l →
    ∃ n, g.get? i = some n ∧ Declares ls weights i l n

namespace Built

variable {ls : List LayerLine} {weights : List WeightLine} {g : Graph}

/-- Every layer comes from a line. -/
theorem get?_lt (hg : Built ls weights g) {h : Handle} {n : Node} (hn : g.get? h = some n) :
    h < ls.length := by
  have hmem := hg.mem_of_get? hn
  rwa [hg.order_eq, List.mem_range] at hmem

/-- A layer comes from the line of its own number. -/
theorem exists_line (hg : Built ls weights g) {h : Handle} {n : Node} (hn : g.get? h = some n) :
    ∃ l, ls[h]? = some l ∧ Declares ls weights h l n := by
  obtain ⟨l, hl⟩ : ∃ l, ls[h]? = some l :=
    Option.isSome_iff_exists.mp (by simpa using hg.get?_lt hn)
  obtain ⟨m, hm, hd⟩ := hg.declares hl
  cases hn.symm.trans hm
  exact ⟨l, hl, hd⟩

end Built

/-- A layer enters the graph behind the layers that it reads. -/
theorem addLayer_cases {weights : List WeightLine} {g g' : Graph} {l : LayerLine}
    (h : addLayer weights g l = .ok g') :
    g.find? l.name = none ∧ ∃ preds kind k,
      List.Forall₂ (fun name p => g.find? name = some p) l.inputs preds ∧ preds ≠ [] ∧
      l.layerKind weights = .ok kind ∧
      g.insert ⟨l.name, preds.map fun p => ((g.get? p).map (·.layer.outputShape)).getD [],
        [l.output], .float32, kind⟩ preds [] = .ok (g', k) := by
  rw [addLayer] at h
  split at h
  · cases h
  · next hnew =>
    obtain ⟨preds, hpreds, h⟩ := bind_eq_ok.mp h
    split at h
    · cases h
    · next hne =>
      obtain ⟨kind, hkind, h⟩ := bind_eq_ok.mp h
      simp only at h
      split at h
      · next g'' k hinsert =>
        cases h
        refine ⟨by simpa using hnew, preds, kind, k, ?_, by simpa using hne, hkind, hinsert⟩
        exact (mapM_eq_ok.mp hpreds).imp fun name p hp => operand_eq_ok hp
      · cases h

namespace Built

variable {ls : List LayerLine} {weights : List WeightLine} {g g' : Graph} {l : LayerLine}

/-- What is found by a name is an earlier layer of that name. -/
theorem line_of_find? (hg : Built ls weights g) {name : String} {p : Handle}
    (hf : g.find? name = some p) : ∃ n m, g.get? p = some n ∧ ls[p]? = some m ∧
      m.name = name ∧ n.layer.outputShape = m.output := by
  obtain ⟨n, hn, hname⟩ := find?_eq_some hf
  obtain ⟨m, hm, hd⟩ := hg.exists_line hn
  exact ⟨n, m, hn, hm, hd.name.symm.trans hname, by simp [Layer.outputShape, hd.outputShapes]⟩

/-- The new node is what its line declares. -/
theorem declares_of_operands (hg : Built ls weights g) (hls : ls ≠ []) {preds : List Handle}
    {kind : LayerKind} (hpreds : List.Forall₂ (fun name p => g.find? name = some p) l.inputs preds)
    (hne : preds ≠ []) (hkind : l.layerKind weights = .ok kind) :
    Declares (ls ++ [l]) weights ls.length l
      ⟨⟨l.name, preds.map fun p => ((g.get? p).map (·.layer.outputShape)).getD [], [l.output],
        .float32, kind⟩, none, preds, []⟩ where
  name := rfl
  outputShapes := rfl
  input hzero := absurd (List.length_eq_zero_iff.mp hzero) hls
  kind _ := hkind
  preds_ne_nil _ := hne
  operands := by
    refine hpreds.imp fun name p hp => ?_
    obtain ⟨n, m, -, hm, hname, -⟩ := hg.line_of_find? hp
    have hlt : p < ls.length := (List.getElem?_eq_some_iff.mp hm).1
    rw [List.getElem?_append_left hlt, hm]
    exact ⟨hlt, congrArg some hname⟩
  inputShapes _ := by
    rw [List.map_map]
    refine List.map_congr_left fun p hp => ?_
    obtain ⟨name, hname⟩ := exists_of_forall₂_of_mem hpreds hp
    obtain ⟨n, m, hn, hm, -, hshape⟩ := hg.line_of_find? hname
    have hlt : p < ls.length := (List.getElem?_eq_some_iff.mp hm).1
    simp [List.getElem?_append_left hlt, hn, hm, hshape]

/-- Adding a layer to the graph of the layers in front of it gives the graph
of one more layer. -/
theorem addLayer (hg : Built ls weights g) (hls : ls ≠ [])
    (h : Model.addLayer weights g l = .ok g') : Built (ls ++ [l]) weights g' := by
  obtain ⟨hnew, preds, kind, k, hpreds, hne, hkind, hinsert⟩ := addLayer_cases h
  obtain ⟨-, hk, -⟩ := Graph.insert_cases hinsert
  rw [hg.fresh_eq] at hk
  subst hk
  have hlast : g.insertionPoint [] = ls.length := by
    simp [Graph.insertionPoint, hg.order_eq]
  refine ⟨hg.toWellFormed.insert hinsert, ?_, ?_, ?_, ?_⟩
  · rw [Graph.order_insert hinsert, hlast, hg.order_eq]
    simp [List.range_succ]
  · rw [Graph.fresh_insert hinsert, hg.fresh_eq, List.length_append, List.length_singleton]
  · have hfresh : l.name ∉ ls.map (·.name) := by
      rw [List.mem_map]
      rintro ⟨m, hm, hname⟩
      obtain ⟨i, hi⟩ := List.mem_iff_getElem?.mp hm
      obtain ⟨n, hn, hd⟩ := hg.declares hi
      exact name_ne_of_find?_eq_none hnew (hg.mem_of_get? hn) hn (hd.name.trans hname)
    rw [List.map_append, List.nodup_append']
    exact ⟨hg.names, by simp, by simpa using hfresh⟩
  · intro i m hm
    rcases Nat.lt_or_ge i ls.length with hi | hi
    · rw [List.getElem?_append_left hi] at hm
      obtain ⟨n, hn, hd⟩ := hg.declares hm
      refine ⟨Node.link ls.length (preds.count i) 0 n, ?_,
        hd.append (m := Node.link _ _ 0 n) (Nat.le_of_lt hi) rfl (List.append_nil _) [l]⟩
      rw [Graph.get?_insert hinsert, if_neg (Nat.ne_of_lt hi), hn]
      rfl
    · have hlt : i < (ls ++ [l]).length := (List.getElem?_eq_some_iff.mp hm).1
      obtain rfl : i = ls.length := by
        rw [List.length_append, List.length_singleton] at hlt
        omega
      obtain rfl : l = m := by simpa using hm
      refine ⟨_, by rw [Graph.get?_insert hinsert, if_pos rfl], ?_⟩
      exact hg.declares_of_operands hls hpreds hne hkind

/-- Adding layers one by one. -/
theorem foldlM_addLayer (hg : Built ls weights g) (hls : ls ≠ []) {more : List LayerLine}
    (h : more.foldlM (Model.addLayer weights) g = .ok g') : Built (ls ++ more) weights g' := by
  induction more generalizing ls g with
  | nil =>
      cases h
      rwa [List.append_nil]
  | cons l more ih =>
      rw [List.foldlM_cons] at h
      obtain ⟨g₁, hadd, h⟩ := bind_eq_ok.mp h
      rw [List.append_cons]
      exact ih (hg.addLayer hls hadd) (by simp) h

/-- The graph of the first line. -/
theorem singleton (hkind : l.kind = "input") (hinputs : l.inputs = []) {h : Handle}
    (hadd : Graph.empty.addInput (.source l.name l.output) = .ok (g, h)) :
    Built [l] weights g := by
  obtain ⟨-, -, -, rfl⟩ := Graph.addInput_cases hadd
  refine ⟨Graph.wellFormed_empty.addInput hadd, rfl, rfl, by simp, ?_⟩
  intro i m hm
  obtain rfl : i = 0 := by
    have hlt := (List.getElem?_eq_some_iff.mp hm).1
    rw [List.length_singleton] at hlt
    omega
  obtain rfl : l = m := by simpa using hm
  refine ⟨_, rfl, ⟨rfl, rfl, fun _ => ⟨rfl, rfl, hkind⟩, by simp, by simp, ?_, by simp⟩⟩
  rw [hinputs]
  exact .nil

/-- The first line declares the input layer. -/
theorem input?_eq (hg : Built ls weights g) (hls : ls ≠ []) : g.input? = some 0 := by
  obtain ⟨k, hk⟩ := Nat.exists_eq_succ_of_ne_zero (mt List.length_eq_zero_iff.mp hls)
  rw [Graph.input?, hg.order_eq, hk, List.range_succ_eq_map, List.head?_cons]

/-- The last one declares the output. -/
theorem output?_eq_some_iff (hg : Built ls weights g) {h : Nat} :
    g.output? = some h ↔ h + 1 = ls.length := by
  rw [Graph.output?, hg.order_eq, List.getLast?_range]
  split
  · simp only [reduceCtorEq, false_iff]
    omega
  · rw [Option.some.injEq]
    omega

/-- Only the first node is an input. -/
theorem isInput_iff (hg : Built ls weights g) {h : Handle} {n : Node} (hn : g.get? h = some n) :
    n.layer.isInput = true ↔ h = 0 := by
  obtain ⟨l, -, hd⟩ := hg.exists_line hn
  refine ⟨fun hinput => ?_, fun hzero => (hd.input hzero).1⟩
  by_contra hne
  refine ne_input_of_layerKind (hd.kind hne) ?_
  rw [Layer.isInput] at hinput
  split at hinput
  · assumption
  · contradiction

/-- Names are unique. -/
theorem name_inj (hg : Built ls weights g) {a b : Handle} {m n : Node} (hm : g.get? a = some m)
    (hn : g.get? b = some n) (hname : m.name = n.name) : a = b := by
  obtain ⟨l, hl, hd⟩ := hg.exists_line hm
  obtain ⟨r, hr, he⟩ := hg.exists_line hn
  have hlt : a < (ls.map (·.name)).length := by simpa using hg.get?_lt hm
  refine (List.getElem?_inj hlt hg.names).mp ?_
  rw [List.getElem?_map, List.getElem?_map, hl, hr, Option.map_some, Option.map_some,
    ← hd.name, ← he.name, hname]

/-- The graph of a description breaks the contract at most by a second sink. -/
theorem framed (hg : Built ls weights g) (hls : ls ≠ []) : g.Framed where
  toWellFormed := hg.toWellFormed
  nonempty := by simpa [hg.order_eq] using hls
  inner {h n} hfirst hn := by
    obtain ⟨l, -, hd⟩ := hg.exists_line hn
    have hne : h ≠ 0 := fun hzero => hfirst (hzero ▸ hg.input?_eq hls)
    exact ⟨Bool.eq_false_iff.mpr (mt (hg.isInput_iff hn).mp hne), hd.preds_ne_nil hne⟩
  name_inj := hg.name_inj

/-- The contract holds when every layer but the last is read. -/
theorem verify_eq_ok_iff (hg : Built ls weights g) (hls : ls ≠ []) :
    g.verify = .ok () ↔ ∀ h n, g.get? h = some n → h + 1 ≠ ls.length → n.succs ≠ [] := by
  rw [Graph.verify_eq_ok_iff hg.listed]
  constructor
  · rintro ⟨-, hsink⟩ h n hn hne hnil
    exact hne (hg.output?_eq_some_iff.mp (hsink h n hn hnil))
  · refine fun hread => ⟨hg.framed hls, fun h n hn hnil => hg.output?_eq_some_iff.mpr ?_⟩
    by_contra hne
    exact hread h n hn hne hnil

end Built

/-! ## Descriptions -/

/-- A graph is built when the first layer is the input, the other layers can be added in
their order, and every weight belongs to one of these. -/
theorem build_eq_ok_iff {d : Declarations} {g : Graph} :
    build d = .ok g ↔ ∃ first rest g₀ h₀, d.layers = first :: rest ∧ first.kind = "input" ∧
      first.inputs = [] ∧ Graph.empty.addInput (.source first.name first.output) = .ok (g₀, h₀) ∧
      rest.foldlM (addLayer d.weights) g₀ = .ok g ∧
      ∀ w ∈ d.weights, isUsed rest d.weights w = true := by
  constructor
  · intro h
    rw [build] at h
    split at h
    · cases h
    · next first rest hlayers =>
      split at h
      · cases h
      · next hfirst =>
        obtain ⟨hkind, hinputs⟩ : first.kind = "input" ∧ first.inputs = [] := by
          simpa [not_or] using hfirst
        split at h
        · cases h
        · next g₀ h₀ hadd =>
          obtain ⟨g₁, hfold, h⟩ := bind_eq_ok.mp h
          split at h
          · cases h
          · next hused =>
            cases h
            exact ⟨first, rest, g₀, h₀, hlayers, hkind, hinputs, hadd, hfold,
              by simpa using hused⟩
  · rintro ⟨first, rest, g₀, h₀, hlayers, hkind, hinputs, hadd, hfold, hused⟩
    have hfirst : ¬(first.kind ≠ "input" ∨ first.inputs ≠ []) := by simp [hkind, hinputs]
    have hnone : d.weights.find? (fun w => !isUsed rest d.weights w) = none := by
      simpa using hused
    simp only [build, hlayers, if_neg hfirst, hadd]
    exact bind_eq_ok.mpr ⟨g, hfold, by rw [hnone]; rfl⟩

/-- A graph that is built comes from at least one line, and line by line. -/
theorem built_of_build {d : Declarations} {g : Graph} (h : build d = .ok g) :
    d.layers ≠ [] ∧ Built d.layers d.weights g := by
  obtain ⟨first, rest, g₀, h₀, hlayers, hkind, hinputs, hadd, hfold, -⟩ := build_eq_ok_iff.mp h
  rw [hlayers]
  have hbuilt : Built [first] d.weights g₀ := Built.singleton hkind hinputs hadd
  exact ⟨by simp, hbuilt.foldlM_addLayer (by simp) hfold⟩

/-- A description is read when its lines are, no weight is given twice, and the graph of
what its lines state can be built. -/
theorem parse_eq_ok_iff {text : String} {g : Graph} :
    parse text = .ok g ↔ faultsOf text = [] ∧ ((weightsOf text).map WeightLine.target).Nodup ∧
      build ⟨layersOf text, weightsOf text⟩ = .ok g := by
  rw [parse]
  split
  · next e he =>
    simp only [reduceCtorEq, false_iff]
    rintro ⟨hfaults, hnodup, -⟩
    rw [declarations_eq_ok_iff.mpr ⟨hfaults, rfl, hnodup⟩] at he
    cases he
  · next d hd =>
    obtain ⟨hfaults, rfl, hnodup⟩ := declarations_eq_ok_iff.mp hd
    rw [orFail_eq_ok]
    exact ⟨fun h => ⟨hfaults, hnodup, h⟩, fun h => h.2.2⟩

/-- The graph of a description is the graph of the layers that it declares. -/
theorem built_of_parse {text : String} {g : Graph} (h : parse text = .ok g) :
    layersOf text ≠ [] ∧ Built (layersOf text) (weightsOf text) g :=
  built_of_build (parse_eq_ok_iff.mp h).2.2

/-- The graph of a description that is read.  The `i`-th declared layer has the
handle `i`; names are distinct; only the first layer is an input; any other reads
the layers that its line names, in that order, all of them declared earlier, and
the shapes that those declare; every edge stands on both sides equally often; and
the contract holds exactly when every layer but the last is read by another. -/
theorem parse_declares {text : String} {g : Graph} (h : parse text = .ok g) :
    g.order = List.range (layersOf text).length ∧
    (∀ h, g.contains h = true ↔ h < (layersOf text).length) ∧
    0 < (layersOf text).length ∧ ((layersOf text).map (·.name)).Nodup ∧
    (∀ (i : Nat) (l : LayerLine), (layersOf text)[i]? = some l →
      ∃ n, g.get? i = some n ∧ (n.layer.isInput = true ↔ i = 0) ∧
        Declares (layersOf text) (weightsOf text) i l n) ∧
    (∀ a b m n, g.get? a = some m → g.get? b = some n → m.succs.count b = n.preds.count a) ∧
    (∀ h n s, g.get? h = some n → s ∈ n.preds ++ n.succs → g.contains s = true) ∧
    (g.verify = .ok () ↔
      ∀ h n, g.get? h = some n → h + 1 ≠ (layersOf text).length → n.succs ≠ []) := by
  obtain ⟨hne, hg⟩ := built_of_parse h
  refine ⟨hg.order_eq, ?_, List.length_pos_iff.mpr hne, hg.names, ?_, ?_, ?_,
    hg.verify_eq_ok_iff hne⟩
  · intro h
    rw [← hg.mem_order, hg.order_eq, List.mem_range]
  · intro i l hl
    obtain ⟨n, hn, hd⟩ := hg.declares hl
    exact ⟨n, hn, hg.isInput_iff hn, hd⟩
  · exact fun a b m n hm hn => hg.mutual_count hm hn
  · intro h n s hn hs
    exact (List.mem_append.mp hs).elim (hg.pred_live hn) (hg.succ_live hn)

/-- A text can be read character by character. -/
theorem parse_of_toList {text : String} {cs : List Char} {g : Graph} (hcs : text.toList = cs)
    (hp : ((readLines ⟨[], []⟩ 1 (lines cs)).bind fun d => orFail (build d)).toOption = some g) :
    parse text = .ok g := by
  rw [← hcs, toOption_eq_some] at hp
  rw [parse, declarations]
  split
  · next he =>
    rw [he] at hp
    cases hp
  · next hd =>
    rw [hd] at hp
    exact hp

/-- A layer that reads another twice, with a third between the two. -/
def residualText : String :=
  "x = input() -> [1, 2]\nid = identity(x) -> [1, 3]\ny = add(id, x, id) -> [1, 4] ; last"

def residual : Graph where
  slots := [some ⟨.source "x" [1, 2], none, [], [1, 2]⟩,
    some ⟨⟨"id", [[1, 2]], [[1, 3]], .float32, .identity⟩, none, [0], [2, 2]⟩,
    some ⟨⟨"y", [[1, 3], [1, 2], [1, 3]], [[1, 4]], .float32, .add .linear⟩, none, [1, 0, 1], []⟩]
  order := [0, 1, 2]

set_option maxRecDepth 2000 in
theorem parse_residualText : parse residualText = .ok residual :=
  parse_of_toList String.toList_ofList (by decide +kernel)

def residualLayers : List LayerLine :=
  [⟨1, "x", "input", [], [], [1, 2]⟩, ⟨2, "id", "identity", ["x"], [], [1, 3]⟩,
    ⟨3, "y", "add", ["id", "x", "id"], [], [1, 4]⟩]

theorem layersOf_of_toList {text : String} {cs : List Char} (hcs : text.toList = cs) :
    layersOf text = viewed declared? 1 (lines cs) := by
  rw [layersOf, hcs]

set_option maxRecDepth 2000 in
/-- The layer lines of that text. -/
theorem layersOf_residualText : layersOf residualText = residualLayers :=
  (layersOf_of_toList String.toList_ofList).trans (by decide +kernel)

/-- Handles 0, 1 and 2 stand for the three lines.  The last layer reads `id` twice, with the
shape that the line of `id` declares, and its two edges stand on both sides. -/
theorem parse_declares_residual :
    parse residualText = .ok residual ∧ layersOf residualText = residualLayers ∧
      residual.order = [0, 1, 2] ∧ (∀ h, residual.contains h = true ↔ h < 3) ∧
      (∃ n, residual.get? 2 = some n ∧ n.layer.isInput = false ∧
        Declares residualLayers (weightsOf residualText) 2
          ⟨3, "y", "add", ["id", "x", "id"], [], [1, 4]⟩ n ∧
        n.preds = [1, 0, 1] ∧ n.layer.inputShapes = [[1, 3], [1, 2], [1, 3]] ∧
        n.layer.outputShapes = [[1, 4]]) ∧
      (∃ m n, residual.get? 1 = some m ∧ residual.get? 2 = some n ∧
        m.succs.count 2 = 2 ∧ n.preds.count 1 = 2) ∧
      residual.verify = .ok () := by
  have hparse := parse_declares parse_residualText
  rw [layersOf_residualText] at hparse
  obtain ⟨horder, hlive, -, -, hdeclares, hcount, -, hverify⟩ := hparse
  obtain ⟨n, hn, hinput, hd⟩ := hdeclares 2 _ rfl
  refine ⟨parse_residualText, layersOf_residualText, horder, hlive,
    ⟨n, hn, by simpa using hinput, hd, ?_⟩, ?_, hverify.mpr ?_⟩
  · cases hn
    exact ⟨rfl, rfl, hd.outputShapes⟩
  · exact ⟨_, n, rfl, hn, (hcount 1 2 _ n rfl hn).trans (by cases hn; rfl), by cases hn; rfl⟩
  · intro h n hn hlast
    have hmem : h ∈ [0, 1, 2] :=
      List.mem_range.mpr ((hlive h).mp (Graph.contains_iff.mpr ⟨n, hn⟩))
    rcases List.mem_cons.mp hmem with rfl | hmem
    · cases hn
      decide
    · rcases List.mem_pair.mp hmem with rfl | rfl
      · cases hn
        decide
      · exact absurd rfl hlast

end NeuralC.Model
