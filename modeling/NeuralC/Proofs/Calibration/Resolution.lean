import NeuralC.Proofs.Compile.Annotate
import NeuralC.Proofs.Graph.Trail

/-!
# NeuralC.Proofs.Calibration.Resolution

What annotation gives each layer in fixed point, said by the table and the edges
alone.  `Lends` says which entry a layer takes its record from: the nearest one
along first operands or, where the input is reached without one, the first one
along first readers of the input.

Annotation goes through the layers in order and reads records that it wrote
itself a moment ago.  `Resolving` is what holds in between; it speaks of the
graph without its records (`Graph.bare`), so that no record from before can be
seen in the result.
-/

namespace NeuralC

/-! ## Graphs without records -/

/-- The node without its record. -/
def Node.bare (n : Node) : Node := { n with quant := none }

/-- A node is its bare form and its record. -/
theorem Node.eq_of_bare {n n₀ : Node} (hb : n.bare = n₀.bare) (hq : n.quant = n₀.quant) :
    n = n₀ := by
  obtain ⟨layer, quant, preds, succs⟩ := n
  injection hb with hlayer _ hpreds hsuccs
  exact Node.mk.injEq .. ▸ ⟨hlayer, hq, hpreds, hsuccs⟩

namespace Graph

def bare (g : Graph) : Graph := { g with slots := g.slots.map (Option.map Node.bare) }

theorem get?_bare (g : Graph) (h : Handle) : g.bare.get? h = (g.get? h).map Node.bare := by
  rw [get?, bare, List.getElem?_map, get?]
  rcases g.slots[h]? with _ | _ | n <;> rfl

/-- Setting a record changes nothing else. -/
theorem bare_setQuant (g : Graph) (h : Handle) (q : Option QuantRecord) :
    (g.setQuant h q).bare = g.bare := by
  rw [bare, bare, setQuant, modify]
  congr 1
  refine List.ext_getElem? fun k => ?_
  rw [List.getElem?_map, List.getElem?_modify, List.getElem?_map]
  split <;> rcases g.slots[k]? with _ | _ | n <;> rfl

section Bare

variable {g g₀ : Graph} (hb : g.bare = g₀.bare)

include hb

/-- The order of layers does not depend on the records. -/
theorem order_of_bare : g.order = g₀.order := congrArg (·.order) hb

/-- A node differs in its record at most. -/
theorem exists_of_bare {h : Handle} {n₀ : Node} (hn₀ : g₀.get? h = some n₀) :
    ∃ n, g.get? h = some n ∧ n.bare = n₀.bare := by
  have heq := congrArg (·.get? h) hb
  simp only [get?_bare, hn₀, Option.map_some] at heq
  exact Option.map_eq_some_iff.mp heq

theorem nameOf_of_bare : g.nameOf = g₀.nameOf := by
  funext h
  have heq := congrArg (fun g => ((g.get? h).map Node.name).getD "") hb
  simp only [get?_bare, Option.map_map] at heq
  exact heq

/-- The first reader of a layer does not depend on the records. -/
theorem firstReader?_of_bare : g.firstReader? = g₀.firstReader? := by
  funext h
  have heq := congrArg (fun g => (g.get? h).bind fun n => n.succs.head?) hb
  simp only [get?_bare, Option.bind_map] at heq
  exact heq

/-- Graphs that have the same records too are the same. -/
theorem eq_of_bare (hq : ∀ h n n₀, g.get? h = some n → g₀.get? h = some n₀ → n.quant = n₀.quant) :
    g = g₀ := by
  have hslots : g.slots = g₀.slots := by
    refine List.ext_getElem? fun k => ?_
    have heq := congrArg (·.slots[k]?) hb
    have hquant := hq k
    simp only [bare, List.getElem?_map] at heq
    simp only [get?] at hquant
    rcases hs : g.slots[k]? with _ | _ | n <;> rcases hs₀ : g₀.slots[k]? with _ | _ | n₀ <;>
      simp [hs, hs₀] at heq hquant ⊢
    exact Node.eq_of_bare heq hquant
  have horder := order_of_bare hb
  obtain ⟨slots, order⟩ := g
  exact Graph.mk.injEq .. ▸ ⟨hslots, horder⟩

end Bare

end Graph

namespace Calibration

open NeuralC.Graph

/-! ## Lenders -/

/-- The layer `h` takes its record from the entry `e`: the nearest one on the chain of first
operands, which starts at `h` and ends at the input `x`, or else the first one on `walk`. -/
def Lends (g : Graph) (t : Table) (x : Handle) (walk : List Handle) (h : Handle) (e : Entry) :
    Prop :=
  ∃ chain, Trail g.firstOperand? h chain ∧ chain.getLast? = some x ∧
    (chain.findSome? (t.entryOf? g)).or (walk.findSome? (t.entryOf? g)) = some e

section Lenders

variable {g : Graph} {t : Table} {x : Handle} {walk : List Handle} {h : Handle} {e : Entry}

/-- A layer takes its record from one entry only. -/
theorem Lends.unique {e' : Entry} (hl : Lends g t x walk h e) (hl' : Lends g t x walk h e') :
    e = e' := by
  obtain ⟨chain, htrail, _, hfound⟩ := hl
  obtain ⟨chain', htrail', _, hfound'⟩ := hl'
  rw [htrail.unique htrail', hfound'] at hfound
  exact (Option.some.inj hfound).symm

variable {n : Node} (hn : g.get? h = some n)

include hn

/-- A layer with an entry takes that. -/
theorem lends_of_entry (hg : g.Framed) (hx : g.input? = some x) (he : t.get? n.name = some e) :
    Lends g t x walk h e := by
  obtain ⟨chain, htrail⟩ := hg.toLinked.exists_trail_firstOperand? h
  refine ⟨chain, htrail, ?_, ?_⟩
  · rw [hg.getLast?_trail htrail (hg.mem_of_get? hn), hx]
  · obtain ⟨ks, rfl⟩ := htrail.exists_eq_cons
    rw [List.findSome?_cons_of_isSome (by rw [t.entryOf?_of_get? hn, he, Option.isSome_some]),
      t.entryOf?_of_get? hn, he, Option.some_or]

/-- A layer without one takes what its first operand takes. -/
theorem Lends.of_operand {p : Handle} {ps : List Handle} (hl : Lends g t x walk p e)
    (hp : n.preds = p :: ps) (he : t.get? n.name = none) : Lends g t x walk h e := by
  obtain ⟨chain, htrail, hlast, hfound⟩ := hl
  refine ⟨h :: chain, .step (by rw [firstOperand?_of_get? hn, hp, List.head?_cons]) htrail, ?_, ?_⟩
  · obtain ⟨ks, rfl⟩ := htrail.exists_eq_cons
    rwa [List.getLast?_cons_cons]
  · rwa [List.findSome?_cons_of_isNone (by rw [t.entryOf?_of_get? hn, he, Option.isNone_none])]

/-- The input takes the first entry behind it. -/
theorem lends_input (hp : n.preds = []) (he : t.get? n.name = none)
    (hwalk : walk.findSome? (t.entryOf? g) = some e) : Lends g t h walk h e := by
  refine ⟨[h], .stop (by rw [firstOperand?_of_get? hn, hp, List.head?_nil]), rfl, ?_⟩
  rw [List.findSome?_cons_of_isNone (by rw [t.entryOf?_of_get? hn, he, Option.isNone_none]),
    List.findSome?_nil, Option.none_or, hwalk]

end Lenders

/-! ## The walk behind the input -/

/-- What is found first, is found at the first place where there is something. -/
theorem findSome?_eq_bind_find? {α β : Type} (f : α → Option β) (as : List α) :
    as.findSome? f = (as.find? fun a => (f a).isSome).bind f := by
  induction as with
  | nil => rfl
  | cons a as ih => cases ha : f a <;> simp [ha, ih]

section Run

variable {g₀ : Graph} {t : Table} {format : NumberFormat} {x : Handle} {walk : List Handle}

/-- The search behind an input without entry gives the first layer on the walk with one. -/
theorem firstCalibrated_walk (hg : g₀.Framed) (hx : g₀.input? = some x)
    (hw : Trail g₀.firstReader? x walk) {g : Graph} {n : Node} (hb : g.bare = g₀.bare)
    (hn : g.get? x = some n) (he : t.get? n.name = none) :
    firstCalibrated g t g.size n = .ok (walk.find? fun k => (t.entryOf? g₀ k).isSome) := by
  obtain ⟨ks, rfl⟩ := hw.exists_eq_cons
  have hmem : x ∈ g₀.order := List.mem_of_head? hx
  have hlength := hg.toLinked.length_trail_firstReader? hw hmem
  have hentry : t.entryOf? g = t.entryOf? g₀ := by
    funext k
    rw [Table.entryOf?, Table.entryOf?, nameOf_of_bare hb]
  have hlive : ∀ k ∈ ks, g.contains k = true := by
    intro k hk
    obtain ⟨m₀, hm₀⟩ := hg.exists_get?
      (hg.toLinked.mem_of_mem_trail hw hmem (List.mem_cons_of_mem x hk))
    obtain ⟨m, hm, _⟩ := exists_of_bare hb hm₀
    exact contains_iff.mpr ⟨m, hm⟩
  rw [firstCalibrated_eq hn (by rwa [firstReader?_of_bare hb]) hlive, hentry,
    List.find?_cons_of_neg]
  · rw [← hentry, t.entryOf?_of_get? hn, he]
    exact Bool.false_ne_true
  · rw [List.length_cons] at hlength
    rw [size, order_of_bare hb]
    omega

/-! ## One layer after another -/

/-- The graph `g` is `g₀` where the layers `pre` have the records that are lent to them and `hs`
are still to come. -/
structure Resolving (g₀ : Graph) (t : Table) (format : NumberFormat) (x : Handle)
    (walk : List Handle) (g : Graph) (pre hs : List Handle) : Prop where
  bare_eq : g.bare = g₀.bare
  order_eq : g₀.order = pre ++ hs
  recorded : ∀ k ∈ pre, ∀ n, g.get? k = some n →
    ∃ e, Lends g₀ t x walk k e ∧ n.quant = some (e.toRecord format)

/-- One more layer is resolved by setting its record. -/
theorem Resolving.setQuant {g : Graph} {pre hs : List Handle} {h : Handle} {e : Entry}
    (hr : Resolving g₀ t format x walk g pre (h :: hs)) (hl : Lends g₀ t x walk h e) :
    Resolving g₀ t format x walk (g.setQuant h (some (e.toRecord format))) (pre ++ [h]) hs where
  bare_eq := (bare_setQuant ..).trans hr.bare_eq
  order_eq := by rw [hr.order_eq, List.append_assoc, List.singleton_append]
  recorded := fun k hk n' hn' => by
    rw [Graph.setQuant, get?_modify] at hn'
    split at hn'
    · next heq =>
        subst heq
        obtain ⟨n, _, rfl⟩ := Option.map_eq_some_iff.mp hn'
        exact ⟨e, hl, rfl⟩
    · next hne =>
        rcases List.mem_append.mp hk with hk | hk
        · exact hr.recorded k hk n' hn'
        · exact (hne (List.mem_singleton.mp hk).symm).elim

/-- In the end, every layer has the record of the entry that is lent to it. -/
theorem Resolving.lent {g : Graph} (hr : Resolving g₀ t format x walk g g₀.order [])
    (hg : g₀.Framed) {k : Handle} {n : Node} (hn : g.get? k = some n) :
    ∃ e, Lends g₀ t x walk k e ∧ n.quant = some (e.toRecord format) := by
  obtain ⟨n₀, hn₀, _⟩ := exists_of_bare hr.bare_eq.symm hn
  exact hr.recorded k (hg.mem_of_get? hn₀) n hn

variable (hg : g₀.Framed) (hx : g₀.input? = some x) (hw : Trail g₀.firstReader? x walk)

include hg hx hw

/-- Where the walk has an entry, each layer gets the record of the entry that is lent to it. -/
theorem Resolving.resolve_apply {u : Workspace} {pre hs : List Handle} {h : Handle}
    (hfound : ∃ k ∈ walk, (t.entryOf? g₀ k).isSome = true)
    (hr : Resolving g₀ t format x walk u.graph pre (h :: hs)) :
    ∃ e v, Lends g₀ t x walk h e ∧ resolve t format h u = .ok (e.toRecord format) v ∧
      v.graph = u.graph := by
  obtain ⟨n₀, hn₀⟩ := hg.exists_get? (h := h) (by rw [hr.order_eq]; simp)
  obtain ⟨n, hn, hbare⟩ := exists_of_bare hr.bare_eq hn₀
  have hname : n.name = n₀.name := congrArg (·.layer.name) hbare
  have hpreds : n.preds = n₀.preds := congrArg (·.preds) hbare
  simp only [resolve, Work.bind_apply, Work.graph_apply, node_eq_ok.mpr hn, Work.attempt_ok,
    Work.pure_apply]
  cases he : t.get? n.name with
  | some e => exact ⟨e, u, lends_of_entry hn₀ hg hx (hname ▸ he), rfl, rfl⟩
  | none =>
      cases hp : n.preds with
      | nil =>
          obtain rfl : h = x := by
            by_contra hne
            have hinner : g₀.input? ≠ some h := fun hf => hne (Option.some.inj (hf.symm.trans hx))
            exact (hg.inner hinner hn₀).2 (hpreds ▸ hp)
          obtain ⟨s, hs⟩ := Option.isSome_iff_exists.mp (List.find?_isSome.mpr hfound)
          have hlender := List.find?_some hs
          obtain ⟨e, hlent⟩ := Option.isSome_iff_exists.mp hlender
          have hwalk : walk.findSome? (t.entryOf? g₀) = some e := by
            rw [findSome?_eq_bind_find?, hs, Option.bind_some, hlent]
          rw [Table.entryOf?, ← nameOf_of_bare hr.bare_eq] at hlent
          simp only [Work.bind_apply, Work.note_apply, Work.attempt_ok, Work.pure_apply,
            firstCalibrated_walk hg hx hw hr.bare_eq hn he, hs, hlent]
          exact ⟨e, _, lends_input hn₀ (hpreds ▸ hp) (hname ▸ he) hwalk, rfl, rfl⟩
      | cons p ps =>
          have hpre : p ∈ pre :=
            hg.mem_of_preds hr.order_eq hn₀ (by rw [← hpreds, hp]; exact List.mem_cons_self)
          obtain ⟨m₀, hm₀⟩ := hg.exists_get? (h := p)
            (by rw [hr.order_eq]; exact List.mem_append_left _ hpre)
          obtain ⟨m, hm, _⟩ := exists_of_bare hr.bare_eq hm₀
          obtain ⟨e, hl, hq⟩ := hr.recorded p hpre m hm
          simp only [Work.bind_apply, node_eq_ok.mpr hm, Work.attempt_ok, Work.pure_apply,
            Work.note_apply, hq]
          exact ⟨e, _, hl.of_operand hn₀ (hpreds ▸ hp) (hname ▸ he), rfl, rfl⟩

/-- Where the walk has an entry, annotation goes through. -/
theorem Resolving.annotateAll_apply {u : Workspace} {pre hs : List Handle}
    (hfound : ∃ k ∈ walk, (t.entryOf? g₀ k).isSome = true)
    (hr : Resolving g₀ t format x walk u.graph pre hs) :
    ∃ v, annotateAll (resolve t format) hs u = .ok () v ∧
      Resolving g₀ t format x walk v.graph (pre ++ hs) [] := by
  induction hs generalizing u pre with
  | nil => exact ⟨u, rfl, by rwa [List.append_nil]⟩
  | cons h hs ih =>
      obtain ⟨e, v, hl, hresolve, hv⟩ := hr.resolve_apply hg hx hw hfound
      have hnext : Resolving g₀ t format x walk
          (v.graph.setQuant h (some (e.toRecord format))) (pre ++ [h]) hs := by
        rw [hv]
        exact hr.setQuant hl
      obtain ⟨v', hrest, hv'⟩ := ih (u := { v with graph := _ }) hnext
      refine ⟨v', ?_, by rwa [List.append_assoc, List.singleton_append] at hv'⟩
      simp only [annotateAll, Work.bind_apply, hresolve, Work.graph_apply, Work.setGraph_apply]
      exact hrest

/-- Where the walk has no entry, annotation stops at the input and has changed nothing. -/
theorem annotateAll_eq_error {u : Workspace} (hb : u.graph.bare = g₀.bare)
    (hnone : ¬∃ k ∈ walk, (t.entryOf? g₀ k).isSome = true) :
    ∃ v, annotateAll (resolve t format) g₀.order u =
        .error (.reported (.quantization (g₀.nameOf x) .nothingToBorrow)) v ∧
      v.graph = u.graph := by
  obtain ⟨rest, horder⟩ := List.head?_eq_some_iff.mp hx
  obtain ⟨n₀, hn₀⟩ := hg.exists_get? (List.mem_of_head? hx)
  obtain ⟨n, hn, hbare⟩ := exists_of_bare hb hn₀
  have hname : n.name = n₀.name := congrArg (·.layer.name) hbare
  have hp : n.preds = [] := (congrArg (·.preds) hbare).trans (hg.preds_first hx hn₀)
  have hfind : walk.find? (fun k => (t.entryOf? g₀ k).isSome) = none := by
    rw [← Option.not_isSome_iff_eq_none, List.find?_isSome]
    exact hnone
  have he : t.get? n.name = none := by
    obtain ⟨ks, rfl⟩ := hw.exists_eq_cons
    have hfirst := List.find?_eq_none.mp hfind x List.mem_cons_self
    rwa [t.entryOf?_of_get? hn₀, ← hname, Option.not_isSome_iff_eq_none] at hfirst
  simp only [horder, annotateAll, resolve, Work.bind_apply, Work.graph_apply, node_eq_ok.mpr hn,
    Work.attempt_ok, Work.pure_apply, he, hp, Work.note_apply,
    firstCalibrated_walk hg hx hw hb hn he, hfind, Work.report_apply]
  rw [nameOf_of_get? hn₀, ← hname]
  exact ⟨_, rfl, rfl⟩

omit hw in
/-- Annotation in fixed point goes through all layers in order. -/
theorem annotate_apply {u : Workspace} (hb : u.graph.bare = g₀.bare) (ht : t.isEmpty = false)
    (hf : format.kind = .integer) :
    annotate (some t) format u = annotateAll (resolve t format) g₀.order u := by
  obtain ⟨n₀, hn₀⟩ := hg.exists_get? (List.mem_of_head? hx)
  obtain ⟨n, hn, _⟩ := exists_of_bare hb hn₀
  have horder := order_of_bare hb
  have hnode : Work.node x u = .ok n u := Work.node_eq_ok.mpr ⟨hn, rfl⟩
  have hinput : u.graph.input? = some x := by rw [input?, horder]; exact hx
  simp only [annotate, inputName, Work.bind_apply, Work.graph_apply, hf, hinput, hnode,
    Work.pure_apply, ht, horder, Bool.false_eq_true, if_false]

end Run

/-! ## All layers -/

/-- Annotation in fixed point resolves every layer of an accepted graph from the table alone.
The walk along first readers of the input ends, and annotation succeeds just when it meets an
entry; if not, it stops at the input and the graph is as before.  Where it succeeds, every layer
has the record of the entry that is lent to it and nothing else has changed, whatever records
there were before. -/
theorem annotate_resolves {w : Workspace} (hv : w.graph.verify = .ok ()) (hl : w.graph.Listed)
    {t : Table} (ht : t.isEmpty = false) {format : NumberFormat} (hf : format.kind = .integer) :
    ∃ x walk, w.graph.input? = some x ∧ Trail w.graph.firstReader? x walk ∧
      ((∃ w', annotate (some t) format w = .ok () w') ↔
        ∃ k ∈ walk, (t.entryOf? w.graph k).isSome = true) ∧
      (∀ w', annotate (some t) format w = .ok () w' →
        w'.graph.bare = w.graph.bare ∧
        (∀ k n, w'.graph.get? k = some n →
          ∃ e, Lends w.graph t x walk k e ∧ n.quant = some (e.toRecord format)) ∧
        ∀ u : Workspace, u.graph.bare = w.graph.bare →
          ∃ u', annotate (some t) format u = .ok () u' ∧ u'.graph = w'.graph) ∧
      ∀ f w', annotate (some t) format w = .error f w' →
        f = .reported (.quantization (w.graph.nameOf x) .nothingToBorrow) ∧
          w'.graph = w.graph := by
  have hg := framed_of_verify hv hl
  obtain ⟨x, rest, horder⟩ := List.exists_cons_of_ne_nil hg.nonempty
  have hx : w.graph.input? = some x := by rw [input?, horder, List.head?_cons]
  obtain ⟨walk, hw⟩ := hg.toLinked.exists_trail_firstReader? x
  refine ⟨x, walk, hx, hw, ?_⟩
  by_cases hfound : ∃ k ∈ walk, (t.entryOf? w.graph k).isSome = true
  · have hrun (u : Workspace) (hu : u.graph.bare = w.graph.bare) :
        ∃ v, annotate (some t) format u = .ok () v ∧
          Resolving w.graph t format x walk v.graph w.graph.order [] := by
      have hstart : Resolving w.graph t format x walk u.graph [] w.graph.order :=
        ⟨hu, rfl, fun _ hk => by contradiction⟩
      rw [annotate_apply hg hx hu ht hf]
      exact hstart.annotateAll_apply hg hx hw hfound
    obtain ⟨v, hv, hr⟩ := hrun w rfl
    refine ⟨⟨fun _ => hfound, fun _ => ⟨v, hv⟩⟩, fun w' hw' => ?_, fun f w' hw' => ?_⟩
    · rw [hv] at hw'
      injection hw' with _ hw'
      subst hw'
      refine ⟨hr.bare_eq, fun k n hn => hr.lent hg hn, fun u hu => ?_⟩
      obtain ⟨v', hv', hr'⟩ := hrun u hu
      refine ⟨v', hv', eq_of_bare (hr'.bare_eq.trans hr.bare_eq.symm) fun k n' n hn' hn => ?_⟩
      obtain ⟨e', hl', hq'⟩ := hr'.lent hg hn'
      obtain ⟨e, hl, hq⟩ := hr.lent hg hn
      rw [hq', hq, hl'.unique hl]
    · rw [hv] at hw'
      contradiction
  · obtain ⟨v, hv, hgraph⟩ : ∃ v, annotate (some t) format w =
        .error (.reported (.quantization (w.graph.nameOf x) .nothingToBorrow)) v ∧
          v.graph = w.graph := by
      rw [annotate_apply hg hx rfl ht hf]
      exact annotateAll_eq_error hg hx hw rfl hfound
    refine ⟨⟨?_, fun h => (hfound h).elim⟩, fun w' hw' => ?_, fun f w' hw' => ?_⟩
    · rintro ⟨w', hw'⟩
      rw [hv] at hw'
      contradiction
    · rw [hv] at hw'
      contradiction
    · rw [hv] at hw'
      injection hw' with hf' hw'
      exact ⟨hf'.symm, hw' ▸ hgraph⟩

/-- Calls that build two layers that read the input, their sum, and one behind it. -/
def forked : List Edit := [
  .addInput (.source "x" [1, 2]),
  .insert ⟨"a", [[1, 2]], [[1, 2]], .float32, .activation .relu⟩ [0] [],
  .insert ⟨"b", [[1, 2]], [[1, 2]], .float32, .activation .relu⟩ [0] [],
  .insert ⟨"s", [[1, 2], [1, 2]], [[1, 2]], .float32, .add .linear⟩ [1, 2] [],
  .insert ⟨"o", [[1, 2]], [[1, 2]], .float32, .flatten⟩ [3] []]

/-- Entries for the second reader of the input and for the sum. -/
def forkedTable : Table :=
  ⟨[("b", ⟨none, some 3, none, none, none, none, none⟩),
    ("s", ⟨none, some 5, none, none, none, some .floor, none⟩)]⟩

/-- Only the first reader is on the walk behind the input, so the input borrows from the sum,
and neither from the other reader nor from the record that the first reader had before.  All
records are of eight bits; what is borrowed is the scale factor and the rounding of the output. -/
theorem annotate_forked :
    let w := history {} forked
    let stale := { w with graph := w.graph.setQuant 1 (some (.float 32 32)) }
    w.graph.verify = .ok () ∧ w.graph.Listed ∧ forkedTable.isEmpty = false ∧
      ∃ w' u', annotate (some forkedTable) .int8 w = .ok () w' ∧
        annotate (some forkedTable) .int8 stale = .ok () u' ∧ u'.graph = w'.graph ∧
        w'.graph.slots.map (fun s => s.bind Node.quant) =
          [some ⟨.integer, 8, 16, none, none, some 5, none, some .floor⟩,
            some ⟨.integer, 8, 16, none, none, some 5, none, some .floor⟩,
            some ⟨.integer, 8, 16, none, none, some 3, none, none⟩,
            some ⟨.integer, 8, 16, none, none, some 5, none, some .floor⟩,
            some ⟨.integer, 8, 16, none, none, some 5, none, some .floor⟩] := by
  intro w stale
  have hv : w.graph.verify = .ok () := by decide
  have hl : w.graph.Listed :=
    (Workspace.wellFormed_afterAll wellFormed_empty forked).toLinked.listed
  obtain ⟨_, _, _, _, _, hok, _⟩ := annotate_resolves (t := forkedTable) hv hl rfl
    (show NumberFormat.int8.kind = .integer from rfl)
  obtain ⟨_, _, hsame⟩ := hok _ rfl
  obtain ⟨u', hu', hgraph⟩ := hsame stale (bare_setQuant ..)
  exact ⟨hv, hl, rfl, _, u', rfl, hu', hgraph, by decide⟩

end Calibration

end NeuralC
