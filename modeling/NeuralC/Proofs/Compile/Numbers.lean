import NeuralC.Proofs.C.Definitions
import NeuralC.Proofs.Compile.Buffers

/-!
# NeuralC.Proofs.Compile.Numbers

What the header of the number types has for the source of a model.

1. The names of its functions are made from the C types of its set: one for each
   helper of a type and one for each two types that differ (`map_name_numberFunctions`).
   No two of them are equal (`nodup_functionNames`): helpers begin in ways none of
   which continues another, conversions begin with a C type, and no part of a C type
   is the word between the two.
2. Conversion to fixed point takes down the types of all records, so the helpers of
   every layer and the conversion on every edge that crosses types are defined once
   (`number_functions_once`).
-/

namespace NeuralC.C

open NeuralC.Emit
open NeuralC.Graph

/-! ## Names -/

/-- What the names of the functions for one C type begin with. -/
def helperFronts : List String :=
  ["min_", "max_", "scale_number_t_", "clamp_to_number_t_", "scale_and_clamp_to_number_t_"]

def helperNames (c : String) : List String := helperFronts.map (· ++ c)

/-- The conversions from one C type to others. -/
def conversionNames (cs : List String) (a : String) : List String :=
  (cs.filter (a ≠ ·)).map (conversionName a)

def functionNames (cs : List String) : List String :=
  cs.flatMap helperNames ++ cs.flatMap (conversionNames cs)

/-- The C types that a header has functions for. -/
def cTypes (types : NumberTypes) : List String :=
  (distinctTypes [] types.toList).map NumberType.cName

/-- The functions of the header are named after the types in use. -/
theorem map_name_numberFunctions (types : NumberTypes) :
    (numberFunctions types).map InlineFunction.name = functionNames (cTypes types) := by
  have hhelpers : ∀ t, (helperFunctions t).map InlineFunction.name = helperNames t.cName :=
    fun _ => rfl
  have hconversions : ∀ (ts : List NumberType) (t : NumberType),
      ((ts.filter fun u => t.cName ≠ u.cName).map (conversionFunction t)).map InlineFunction.name =
        conversionNames (ts.map NumberType.cName) t.cName := by
    intro ts t
    rw [conversionNames, List.filter_map, List.map_map, List.map_map]
    rfl
  simp only [numberFunctions, conversionFunctions, functionNames, cTypes, List.map_append,
    List.map_flatMap, List.flatMap_map, hhelpers, hconversions]

/-- Each type is taken once, at its first mention. -/
theorem mem_map_distinctTypes {c : String} {seen : List String} {ts : List NumberType} :
    c ∈ (distinctTypes seen ts).map NumberType.cName ↔
      c ∈ ts.map NumberType.cName ∧ c ∉ seen := by
  induction ts generalizing seen with
  | nil => simp [distinctTypes]
  | cons t ts ih =>
      rw [distinctTypes]
      split
      · next hseen =>
        rw [ih, List.map_cons, List.mem_cons]
        grind
      · next hnew =>
        rw [List.map_cons, List.mem_cons, ih, List.map_cons, List.mem_cons, List.mem_cons]
        grind

/-- The types taken have distinct names. -/
theorem nodup_map_distinctTypes (seen : List String) (ts : List NumberType) :
    ((distinctTypes seen ts).map NumberType.cName).Nodup := by
  induction ts generalizing seen with
  | nil => simp [distinctTypes]
  | cons t ts ih =>
      rw [distinctTypes]
      split
      · exact ih seen
      · rw [List.map_cons, List.nodup_cons, mem_map_distinctTypes]
        exact ⟨fun h => h.2 List.mem_cons_self, ih _⟩

/-- The types of the header are those in use. -/
theorem mem_cTypes {c : String} {types : NumberTypes} :
    c ∈ cTypes types ↔ ∃ t ∈ types.toList, t.cName = c := by
  rw [cTypes, mem_map_distinctTypes, List.mem_map]
  simp

/-! ## Distinct names -/

/-- No helper begins like another. -/
theorem helperFronts_inj {a b c d : String} (ha : a ∈ helperFronts) (hb : b ∈ helperFronts)
    (h : a ++ c = b ++ d) : a = b ∧ c = d := by
  have hfree : ∀ x ∈ helperFronts, ∀ y ∈ helperFronts, x.toList <+: y.toList → x = y := by decide
  have hlist : a.toList ++ c.toList = b.toList ++ d.toList := by
    rw [← String.toList_append, h, String.toList_append]
  have hab : a = b := by
    have hfront : a.toList <+: b.toList ++ d.toList := ⟨c.toList, hlist⟩
    cases List.prefix_or_prefix_of_prefix hfront (List.prefix_append _ _) with
    | inl hpre => exact hfree a ha b hb hpre
    | inr hpre => exact (hfree b hb a ha hpre).symm
  subst hab
  exact ⟨rfl, String.toList_inj.mp (List.append_cancel_left hlist)⟩

theorem toList_conversionName (a b : String) :
    (conversionName a b).toList = a.toList ++ '_' :: ('t' :: 'o' :: '_' :: b.toList) := by
  simp [conversionName, toString]

/-- A C type begins with a letter that no helper begins with. -/
theorem head?_cName (t : NumberType) : ∃ c ∈ ['i', 'f', 'd'], t.cName.toList.head? = some c := by
  obtain ⟨kind, width, _⟩ := t
  rw [NumberType.cName]
  cases kind with
  | integer => exact ⟨'i', by decide, by simp [cType, toString]⟩
  | float =>
      rw [cType]
      split
      · exact ⟨'d', by decide, by decide⟩
      · exact ⟨'f', by decide, by decide⟩

/-- The word between two C types is no part of a C type. -/
theorem to_not_mem_fields (t : NumberType) : ['t', 'o'] ∉ Text.fields '_' t.cName.toList := by
  obtain ⟨kind, width, _⟩ := t
  rw [NumberType.cName]
  cases kind with
  | integer =>
      have hfront : ∀ c ∈ "int".toList ++ (toString width).toList, c ≠ '_' := by
        rintro c hc rfl
        cases List.mem_append.mp hc with
        | inl hint => simp at hint
        | inr hdigit => exact absurd (isDigit_of_mem_toString hdigit) (by decide)
      have htype : (cType .integer width).toList =
          ("int".toList ++ (toString width).toList) ++ '_' :: ['t'] := by
        simp [cType, toString]
      rw [htype, Text.fields_append hfront]
      simp [Text.fields]
  | float =>
      rw [cType]
      split <;> decide

/-- A conversion names both its C types. -/
theorem conversionName_inj {t u : NumberType} {a b : String}
    (h : conversionName t.cName u.cName = conversionName a b) : t.cName = a ∧ u.cName = b := by
  have hparts : ∀ x y : String, Text.fields '_' (conversionName x y).toList =
      Text.fields '_' x.toList ++ ['t', 'o'] :: Text.fields '_' y.toList := by
    intro x y
    have hword : ∀ c ∈ ['t', 'o'], c ≠ '_' := by simp
    rw [toList_conversionName, Text.fields_append_cons]
    exact congrArg _ (Text.fields_append hword y.toList)
  have hwhole : ∀ {x y : String}, Text.fields '_' x.toList = Text.fields '_' y.toList → x = y := by
    intro x y hxy
    rw [← String.toList_inj, ← Text.intercalate_fields '_' x.toList, hxy, Text.intercalate_fields]
  have hfields := hparts t.cName u.cName
  rw [h, hparts, eq_comm, List.append_cons_inj_of_notMem (to_not_mem_fields t)
    (to_not_mem_fields u)] at hfields
  exact ⟨hwhole hfields.1, hwhole hfields.2.2⟩

/-- The helpers of one type have distinct names. -/
theorem nodup_helperNames (c : String) : (helperNames c).Nodup := by
  refine List.Nodup.map_on (fun a ha b hb h => (helperFronts_inj ha hb h).1) ?_
  decide

/-- A conversion is no helper. -/
theorem conversionName_ne_helper (t : NumberType) {a b c : String} (ha : a ∈ helperFronts) :
    conversionName t.cName b ≠ a ++ c := by
  intro h
  obtain ⟨x, hx, hhead⟩ := head?_cName t
  have hfronts : ∀ a ∈ helperFronts, ∃ y ∉ ['i', 'f', 'd'], a.toList.head? = some y := by
    simp [helperFronts]
  obtain ⟨y, hy, hfront⟩ := hfronts a ha
  have hlist := congrArg (fun s => s.toList.head?) h
  simp only [toList_conversionName, String.toList_append, List.head?_append] at hlist
  rw [hhead, hfront, Option.some_or, Option.some_or, Option.some.injEq] at hlist
  exact hy (hlist ▸ hx)

section Nodup

variable {cs : List String} (hcs : cs.Nodup)

include hcs

/-- The helpers of several types have distinct names. -/
theorem nodup_flatMap_helperNames : (cs.flatMap helperNames).Nodup := by
  refine List.nodup_flatMap.mpr ⟨fun c _ => nodup_helperNames c, ?_⟩
  refine hcs.pairwise_of_forall_ne fun c _ d _ hne name hc hd => hne ?_
  obtain ⟨a, ha, rfl⟩ := List.mem_map.mp hc
  obtain ⟨b, hb, heq⟩ := List.mem_map.mp hd
  exact (helperFronts_inj hb ha heq).2.symm

/-- The conversions between types have distinct names. -/
theorem nodup_flatMap_conversionNames (htype : ∀ c ∈ cs, ∃ t : NumberType, t.cName = c) :
    (cs.flatMap (conversionNames cs)).Nodup := by
  refine List.nodup_flatMap.mpr ⟨fun a ha => ?_, ?_⟩
  · obtain ⟨t, rfl⟩ := htype a ha
    refine List.Nodup.map_on (fun b hb b' _ heq => ?_) (hcs.filter _)
    obtain ⟨u, rfl⟩ := htype b (List.mem_of_mem_filter hb)
    exact (conversionName_inj heq).2
  · refine hcs.pairwise_of_forall_ne fun a ha b _ hne name hname hname' => hne ?_
    obtain ⟨t, rfl⟩ := htype a ha
    obtain ⟨c, hc, rfl⟩ := List.mem_map.mp hname
    obtain ⟨u, rfl⟩ := htype c (List.mem_of_mem_filter hc)
    obtain ⟨d, _, heq⟩ := List.mem_map.mp hname'
    exact (conversionName_inj heq.symm).1

end Nodup

/-- No two functions of a header have one name. -/
theorem nodup_functionNames (types : NumberTypes) : (functionNames (cTypes types)).Nodup := by
  have hcs : (cTypes types).Nodup := nodup_map_distinctTypes _ _
  have htype : ∀ c ∈ cTypes types, ∃ t : NumberType, t.cName = c := fun c hc =>
    (mem_cTypes.mp hc).imp fun _ ht => ht.2
  rw [functionNames, List.nodup_append']
  refine ⟨nodup_flatMap_helperNames hcs, nodup_flatMap_conversionNames hcs htype, ?_⟩
  intro name hhelper hconversion
  obtain ⟨c, _, hname⟩ := List.mem_flatMap.mp hhelper
  obtain ⟨a, ha, rfl⟩ := List.mem_map.mp hname
  obtain ⟨b, hb, hname⟩ := List.mem_flatMap.mp hconversion
  obtain ⟨d, _, heq⟩ := List.mem_map.mp hname
  obtain ⟨t, rfl⟩ := htype b hb
  exact conversionName_ne_helper t ha heq

/-! ## Headers -/

section Header

variable {types : NumberTypes} {t u : NumberType}

/-- A function of the header is defined once. -/
theorem count_definitions {name : String} (h : name ∈ functionNames (cTypes types)) :
    (definitions (render (numberHeader types))).count name = 1 := by
  rw [definitions_numberHeader, map_name_numberFunctions]
  exact List.count_eq_one_of_mem (nodup_functionNames types) h

/-- Each helper of a type in use is defined once. -/
theorem count_helper (ht : t ∈ types.toList) {name : String} (hname : name ∈ helperNames t.cName) :
    (definitions (render (numberHeader types))).count name = 1 := by
  have hc := mem_cTypes.mpr ⟨t, ht, rfl⟩
  exact count_definitions (List.mem_append_left _ (List.mem_flatMap.mpr ⟨_, hc, hname⟩))

/-- The conversion between two types in use is defined once. -/
theorem count_conversion (ht : t ∈ types.toList) (hu : u ∈ types.toList)
    (hne : t.cName ≠ u.cName) :
    (definitions (render (numberHeader types))).count (conversionName t.cName u.cName) = 1 := by
  have hc := mem_cTypes.mpr ⟨t, ht, rfl⟩
  have hd := mem_cTypes.mpr ⟨u, hu, rfl⟩
  have hname : conversionName t.cName u.cName ∈ conversionNames (cTypes types) t.cName :=
    List.mem_map_of_mem (List.mem_filter.mpr ⟨hd, by simpa using hne⟩)
  exact count_definitions (List.mem_append_right _ (List.mem_flatMap.mpr ⟨_, hc, hname⟩))

end Header

/-! ## Sources -/

/-- A value crosses between types exactly if its producer and its reader differ in type. -/
theorem crossing?_eq_some {g : Graph} {p h : Handle} {a b : String} :
    crossing? g p h = some (a, b) ↔ cType? g p = some a ∧ cType? g h = some b ∧ a ≠ b := by
  simp only [crossing?, Option.bind_eq_bind, Option.bind_eq_some_iff]
  constructor
  · rintro ⟨x, hx, y, hy, hxy⟩
    split at hxy
    · contradiction
    · next hne =>
      cases hxy
      exact ⟨hx, hy, hne⟩
  · rintro ⟨hx, hy, hne⟩
    exact ⟨a, hx, b, hy, if_neg hne⟩

/-- What a source converts is on an edge of the graph. -/
theorem Source.Converts.exists_edge {src : Source} {g : Graph} (hs : src.Converts g) {c : Call}
    (hc : c ∈ src.calls) {o : Operand} (ho : o ∈ c.operands) {a b : String}
    (hcross : o.crossing? = some (a, b)) :
    ∃ k n p, g.get? k = some n ∧ p ∈ n.preds ∧ cType? g p = some a ∧ cType? g k = some b ∧
      a ≠ b := by
  have hcall : c.crossings ∈ g.order.filterMap (crossings? g) := hs ▸ List.mem_map_of_mem hc
  obtain ⟨k, _, hk⟩ := List.mem_filterMap.mp hcall
  obtain ⟨n, hn, hk⟩ := Option.bind_eq_some_iff.mp hk
  have hedges : n.preds.map (crossing? g · k) = c.operands.map Operand.crossing? := by
    split at hk
    · contradiction
    · exact Option.some.inj hk
  obtain ⟨p, hp, hedge⟩ := List.mem_map.mp (hedges ▸ List.mem_map_of_mem ho)
  rw [hcross, crossing?_eq_some] at hedge
  exact ⟨k, n, p, hn, hp, hedge⟩

/-! ## Converted graphs -/

section Converted

variable {w w' : Workspace} (hq : Quantize.quantize w = .ok () w')

include hq

/-- The type of every layer that was converted has been taken down. -/
theorem exists_cType {k : Handle} (hk : k ∈ w.graph.order) :
    ∃ t ∈ w'.session.types.toList, cType? w'.graph k = some t.cName := by
  obtain ⟨hconverted, htypes⟩ := Quantize.quantizeAll_eq_ok hq
  obtain ⟨n, _, hn, _, hquant⟩ := hconverted.quantized k hk
  obtain ⟨q, hrecord, _⟩ := hquant.recodes
  have htype := typeOf?_of_quant hn hrecord
  refine ⟨q.numberType, (htypes _).mpr (.inr ⟨k, hk, htype⟩), ?_⟩
  rw [cType?, hconverted.recast.typeOf?_eq, htype, Option.map_some]

/-- All layers were converted, and so were their operands. -/
theorem mem_order_of_quantize (hg : w.graph.Sequenced) {k : Handle} {n : Node}
    (hn : w'.graph.get? k = some n) : k ∈ w.graph.order ∧ ∀ p ∈ n.preds, p ∈ w.graph.order := by
  obtain ⟨m, hm, hout⟩ := (Quantize.quantizeAll_eq_ok hq).1.recast.exists_get? hn
  have hpreds : n.outline.preds = m.outline.preds := congrArg Node.preds hout
  exact ⟨hg.mem_of_get? hm, fun p hp => hg.mem_order.mpr (hg.pred_live hm (hpreds ▸ hp))⟩

/-- The conversion on an edge is defined once where the C types of its ends differ. -/
theorem count_edge (hg : w.graph.Sequenced) {k p : Handle} {n : Node}
    (hn : w'.graph.get? k = some n) (hp : p ∈ n.preds) {a b : String}
    (ha : cType? w'.graph p = some a) (hb : cType? w'.graph k = some b) (hne : a ≠ b) :
    (definitions (render (numberHeader w'.session.types))).count (conversionName a b) = 1 := by
  obtain ⟨hk, hpreds⟩ := mem_order_of_quantize hq hg hn
  obtain ⟨t, ht, htype⟩ := exists_cType hq (hpreds p hp)
  obtain ⟨u, hu, hutype⟩ := exists_cType hq hk
  obtain rfl : a = t.cName := Option.some.inj (ha.symm.trans htype)
  obtain rfl : b = u.cName := Option.some.inj (hb.symm.trans hutype)
  exact count_conversion ht hu hne

end Converted

/-- **The header of the number types defines what the source of a model calls, once.**  After
conversion to fixed point every layer has a C type, whose helpers the header defines once; and
where an operand has another C type, the header defines the conversion once.  A source converts
its operands on these edges only. -/
theorem number_functions_once {w w' : Workspace} (hr : Reachable w.graph)
    (hq : Quantize.quantize w = .ok () w') (plan : Memory.Plan) (layer : Option Handle)
    (weights : List CArray) :
    ∃ header, engine .numbers ⟨w'.graph, plan, w'.session.types, layer, weights⟩ = .ok header ∧
    (∀ k n, w'.graph.get? k = some n → ∃ b, cType? w'.graph k = some b ∧
      (∀ name ∈ helperNames b, (definitions header).count name = 1) ∧
      ∀ p ∈ n.preds, ∃ a, cType? w'.graph p = some a ∧
        (a ≠ b → (definitions header).count (conversionName a b) = 1)) ∧
    ∀ source, engine .model ⟨w'.graph, plan, w'.session.types, layer, weights⟩ = .ok source →
      ∃ src : Source, render src.code = source ∧ src.Converts w'.graph ∧
        ∀ c ∈ src.calls, ∀ o ∈ c.operands, ∀ v, o.conversion = some v →
          (definitions header).count (conversionName v.source v.target) = 1 := by
  have hg := hr.linked.toSequenced
  refine ⟨_, rfl, fun k n hn => ?_, fun source hsource => ?_⟩
  · obtain ⟨hk, hpreds⟩ := mem_order_of_quantize hq hg hn
    obtain ⟨t, ht, htype⟩ := exists_cType hq hk
    refine ⟨t.cName, htype, fun name hname => count_helper ht hname, fun p hp => ?_⟩
    obtain ⟨u, _, hutype⟩ := exists_cType hq (hpreds p hp)
    exact ⟨u.cName, hutype, count_edge hq hg hn hp hutype htype⟩
  · obtain ⟨code, hcode, rfl⟩ := engine_eq_ok.mp hsource
    obtain ⟨src, rfl, _, hs⟩ := exists_converting_source hcode
    refine ⟨src, rfl, hs, fun c hc o ho v hv => ?_⟩
    have hcross : o.crossing? = some (v.source, v.target) := by
      rw [Operand.crossing?, hv, Option.map_some]
    obtain ⟨k, n, p, hn, hp, ha, hb, hne⟩ := hs.exists_edge hc ho hcross
    exact count_edge hq hg hn hp ha hb hne

/-- A network with integers in one layer and floats in the others: the helpers and the conversion
are there once. -/
theorem number_functions_mixed :
    Reachable mixed ∧ ∃ w' header source, Quantize.quantize ⟨mixed, {}⟩ = .ok () w' ∧
      engine .numbers ⟨w'.graph, mixedPlan, w'.session.types, none, []⟩ = .ok header ∧
      engine .model ⟨w'.graph, mixedPlan, w'.session.types, none, []⟩ = .ok source ∧
      (definitions header).count "clamp_to_number_t_float" = 1 ∧
      (definitions header).count "int8_t_to_float" = 1 ∧
      ∃ src : Source, render src.code = source ∧
        src.calls.map Call.crossings =
          [[some ("int8_t", "float")], [none], [none], [none, none]] := by
  obtain ⟨w', hq⟩ : ∃ w', Quantize.quantize ⟨mixed, {}⟩ = .ok () w' := ⟨_, rfl⟩
  have hgraph : w'.graph = mixed := by
    cases hq
    rfl
  obtain ⟨header, hheader, hlayers, hsources⟩ :=
    number_functions_once evolved_mixed.reachable hq mixedPlan none []
  obtain ⟨source, hsource⟩ : ∃ source,
      engine .model ⟨w'.graph, mixedPlan, w'.session.types, none, []⟩ = .ok source := by
    rw [hgraph]
    exact ⟨_, rfl⟩
  obtain ⟨src, hrender, hconverts, _⟩ := hsources source hsource
  rw [hgraph] at hlayers hconverts
  -- the first layer behind the input
  obtain ⟨b, hb, hhelpers, hedges⟩ := hlayers 1 _ rfl
  obtain ⟨a, ha, hconversion⟩ := hedges 0 (by decide)
  obtain rfl : b = "float" := Option.some.inj (hb.symm.trans (by decide))
  obtain rfl : a = "int8_t" := Option.some.inj (ha.symm.trans (by decide))
  refine ⟨evolved_mixed.reachable, w', header, source, hq, hheader, hsource, hhelpers _ (by decide),
    hconversion (by decide), src, hrender, ?_⟩
  rw [hconverts]
  decide

end NeuralC.C
