import NeuralC.Proofs.Compile.Passes
import NeuralC.Proofs.Graph.Trail

/-!
# NeuralC.Proofs.Compile.Annotate

Annotation is safe and leaves no layer without a record.  Layers are annotated in
order, so a layer finds a record at each of its operands.  A layer without
operands walks along first readers instead; edges run forward in the order, so the
walk ends within the bound it is given, and it finds the first layer on its trail
that has an entry (`firstCalibrated_eq`).
-/

namespace NeuralC

def Node.Recorded (n : Node) : Prop := n.quant.isSome = true

namespace Calibration

open NeuralC.Graph

variable {Large : Graph → Prop}

/-! ## Borrowing -/

def Table.entryOf? (t : Table) (g : Graph) (h : Handle) : Option Entry := t.get? (g.nameOf h)

theorem Table.entryOf?_of_get? {t : Table} {g : Graph} {h : Handle} {n : Node}
    (hn : g.get? h = some n) : t.entryOf? g h = t.get? n.name := by
  rw [entryOf?, nameOf_of_get? hn]

/-- The search behind a layer goes along its trail and stops at the first layer with an entry. -/
theorem firstCalibrated_eq {g : Graph} {t : Table} {steps : Nat} {h : Handle} {n : Node}
    {ks : List Handle} (hn : g.get? h = some n) (ht : Trail g.firstReader? h (h :: ks))
    (hlive : ∀ k ∈ ks, g.contains k = true) (hsteps : ks.length ≤ steps) :
    firstCalibrated g t steps n = .ok (ks.find? fun k => (t.entryOf? g k).isSome) := by
  induction ks generalizing h n steps with
  | nil =>
      cases ht with
      | stop hnone =>
          rw [firstReader?_of_get? hn, List.head?_eq_none_iff] at hnone
          rw [firstCalibrated, hnone]
          rfl
      | step _ hrest => cases hrest
  | cons k ks ih =>
      cases ht with
      | @step _ k' _ hnext hrest =>
          obtain ⟨_, heq⟩ := hrest.exists_eq_cons
          obtain ⟨rfl, _⟩ := List.cons.inj heq
          rw [firstReader?_of_get? hn] at hnext
          obtain ⟨rest, hsuccs⟩ := List.head?_eq_some_iff.mp hnext
          obtain ⟨hk, hlive⟩ := List.forall_mem_cons.mp hlive
          obtain ⟨m, hm⟩ := contains_iff.mp hk
          obtain ⟨steps, rfl⟩ : ∃ s, steps = s + 1 :=
            Nat.exists_eq_add_one.mpr (Nat.lt_of_lt_of_le (Nat.succ_pos _) hsteps)
          have hrest' := ih hm hrest hlive (Nat.le_of_succ_le_succ hsteps)
          rw [firstCalibrated, hsuccs]
          simp only [node_eq_ok.mpr hm, List.find?_cons, t.entryOf?_of_get? hm, hrest']
          cases (t.get? m.name).isSome <;> rfl

/-- A search ends without a layer, or at one with an entry. -/
theorem firstCalibrated_cases {g : Graph} (hg : g.Linked) (t : Table) {h : Handle} {n : Node}
    (hn : g.get? h = some n) :
    firstCalibrated g t g.size n = .ok none ∨ ∃ s m e,
      firstCalibrated g t g.size n = .ok (some s) ∧ g.get? s = some m ∧
        t.get? m.name = some e := by
  obtain ⟨hs, htrail⟩ := hg.exists_trail_firstReader? h
  obtain ⟨ks, rfl⟩ := htrail.exists_eq_cons
  have hh := hg.mem_of_get? hn
  have hlength := hg.length_trail_firstReader? htrail hh
  have hlive : ∀ k ∈ ks, g.contains k = true := fun k hk =>
    hg.mem_order.mp (hg.mem_of_mem_trail htrail hh (List.mem_cons_of_mem h hk))
  have hsteps : ks.length ≤ g.size := by
    rw [List.length_cons] at hlength
    rw [Graph.size]
    omega
  rw [firstCalibrated_eq hn htrail hlive hsteps]
  cases hfind : ks.find? fun k => (t.entryOf? g k).isSome with
  | none => exact .inl rfl
  | some s =>
      obtain ⟨m, hm⟩ := contains_iff.mp (hlive s (List.mem_of_find?_eq_some hfind))
      have hentry := List.find?_some hfind
      rw [t.entryOf?_of_get? hm] at hentry
      obtain ⟨e, he⟩ := Option.isSome_iff_exists.mp hentry
      exact .inr ⟨s, m, e, rfl, hm, he⟩

/-! ## One layer after another -/

/-- The graph `g` is `g₀` where the layers `pre` have got their records and `hs` are still to
come. -/
structure Annotating (g₀ g : Graph) (pre hs : List Handle) : Prop where
  framed : g.Framed
  order_eq : g.order = pre ++ hs
  layer_eq : ∀ k, (g.get? k).map Node.layer = (g₀.get? k).map Node.layer
  preds_eq : ∀ k, (g.get? k).map Node.preds = (g₀.get? k).map Node.preds
  recorded : ∀ k ∈ pre, ∀ n, g.get? k = some n → n.Recorded

namespace Annotating

variable {g₀ g : Graph} {pre hs : List Handle} {h : Handle}

/-- The next layer to annotate is there. -/
theorem exists_get? (ha : Annotating g₀ g pre (h :: hs)) : ∃ n, g.get? h = some n :=
  ha.framed.exists_get? (by rw [ha.order_eq]; simp)

/-- The operands of the next layer have their records. -/
theorem operand {n : Node} {p : Handle} (ha : Annotating g₀ g pre (h :: hs))
    (hn : g.get? h = some n) (hp : p ∈ n.preds) : ∃ m q, g.get? p = some m ∧ m.quant = some q := by
  obtain ⟨m, hm⟩ := contains_iff.mp (ha.framed.pred_live hn hp)
  have hpre := ha.framed.mem_of_preds ha.order_eq hn hp
  obtain ⟨q, hq⟩ := Option.isSome_iff_exists.mp (ha.recorded p hpre m hm)
  exact ⟨m, q, hm, hq⟩

/-- Setting the record of the next layer annotates one more. -/
theorem setQuant (ha : Annotating g₀ g pre (h :: hs)) (q : QuantRecord) :
    Annotating g₀ (g.setQuant h (some q)) (pre ++ [h]) hs where
  framed := ha.framed.modify (fun _ => ⟨rfl, rfl⟩) fun _ => ⟨rfl, rfl⟩
  order_eq := by
    rw [Graph.setQuant, order_modify, ha.order_eq, List.append_assoc, List.singleton_append]
  layer_eq := fun k => by
    rw [← ha.layer_eq k, Graph.setQuant, get?_modify]
    split
    · rw [Option.map_map]
      rfl
    · rfl
  preds_eq := fun k => by
    rw [← ha.preds_eq k, Graph.setQuant, get?_modify]
    split
    · rw [Option.map_map]
      rfl
    · rfl
  recorded := fun k hk n' hn' => by
    rw [Graph.setQuant, get?_modify] at hn'
    split at hn'
    · obtain ⟨n, _, rfl⟩ := Option.map_eq_some_iff.mp hn'
      rfl
    · next hne =>
        rcases List.mem_append.mp hk with hk | hk
        · exact ha.recorded k hk n' hn'
        · exact (hne (List.mem_singleton.mp hk).symm).elim

end Annotating

section Rules

variable {g₀ : Graph} {w : Workspace} {pre hs : List Handle} {h : Handle}
  (ha : Annotating g₀ w.graph pre (h :: hs))

include ha

/-- A uniform record is made without touching the graph. -/
theorem ensures_uniform (format : NumberFormat) :
    Work.Ensures Large (uniform format h) w fun _ v => v.graph = w.graph := by
  obtain ⟨n, hn⟩ := ha.exists_get?
  simp only [uniform, Work.ensures_bind, Work.ensures_node hn, Work.ensures_pure]

/-- A record is made from the calibration table without touching the graph. -/
theorem ensures_resolve (t : Table) (format : NumberFormat) :
    Work.Ensures Large (resolve t format h) w fun _ v => v.graph = w.graph := by
  obtain ⟨n, hn⟩ := ha.exists_get?
  simp only [resolve, Work.ensures_bind, Work.ensures_graph, node_eq_ok.mpr hn, Work.attempt_ok,
    Work.ensures_pure]
  cases ht : t.get? n.name with
  | some e => simp only [Work.ensures_pure]
  | none =>
      cases hp : n.preds with
      | nil =>
          simp only [Work.ensures_bind, Work.ensures_note]
          rcases firstCalibrated_cases ha.framed.toLinked t hn with
            hnone | ⟨s, m, e, hsome, hm, he⟩
          · rw [hnone, Work.attempt_ok, Work.ensures_pure]
            exact Work.ensures_report.mpr rfl
          · simp only [hsome, Work.attempt_ok, Work.ensures_pure, Work.ensures_bind,
              Work.ensures_note, Graph.nameOf_of_get? hm, he]
      | cons p rest =>
          obtain ⟨m, q, hm, hq⟩ := ha.operand hn (hp ▸ List.mem_cons_self)
          simp only [Work.ensures_bind, node_eq_ok.mpr hm, Work.attempt_ok, Work.ensures_pure,
            Work.ensures_note, hq]

end Rules

/-- Where a rule leaves the graph alone, annotating layers by it is safe and leaves none of them
without a record. -/
theorem ensures_annotateAll {g₀ : Graph} {record : Handle → Work QuantRecord}
    (hrecord : ∀ {w pre h hs}, Annotating g₀ w.graph pre (h :: hs) →
      Work.Ensures Large (record h) w fun _ v => v.graph = w.graph)
    {w : Workspace} {pre hs : List Handle} (ha : Annotating g₀ w.graph pre hs) :
    Work.Ensures Large (annotateAll record hs) w fun _ v =>
      Annotating g₀ v.graph (pre ++ hs) [] := by
  induction hs generalizing w pre with
  | nil =>
      rw [List.append_nil]
      exact Work.ensures_pure.mpr ha
  | cons h hs ih =>
      simp only [annotateAll, Work.ensures_bind, Work.ensures_graph, Work.ensures_setGraph]
      refine (hrecord ha).mono fun q v hv => ?_
      have hnext : Annotating g₀ (v.graph.setQuant h (some q)) (pre ++ [h]) hs := by
        rw [hv]
        exact ha.setQuant q
      rw [← List.singleton_append, ← List.append_assoc]
      exact ih (w := { v with graph := v.graph.setQuant h (some q) }) hnext

/-! ## All layers -/

/-- The graph `g` is `g₀` with a record at every layer. -/
structure Annotated (g₀ g : Graph) : Prop where
  framed : g.Framed
  recorded : g.All Node.Recorded
  layer_eq : ∀ k, (g.get? k).map Node.layer = (g₀.get? k).map Node.layer
  preds_eq : ∀ k, (g.get? k).map Node.preds = (g₀.get? k).map Node.preds

/-- When no layer is left, all are annotated. -/
theorem Annotating.annotated {g₀ g : Graph} {pre : List Handle} (ha : Annotating g₀ g pre []) :
    Annotated g₀ g where
  framed := ha.framed
  recorded := fun k n hn => by
    have hk := ha.framed.mem_of_get? hn
    rw [ha.order_eq, List.append_nil] at hk
    exact ha.recorded k hk n hn
  layer_eq := ha.layer_eq
  preds_eq := ha.preds_eq

/-- What depends on the layer and the operands of a node only is kept. -/
theorem Annotated.all {P : Node → Prop} {g₀ g : Graph} (ha : Annotated g₀ g)
    (hP : ∀ m n : Node, n.layer = m.layer → n.preds = m.preds → P m → P n) (hg : g₀.All P) :
    g.All P := by
  intro h n hn
  have hlayer := ha.layer_eq h
  have hpreds := ha.preds_eq h
  rw [hn] at hlayer hpreds
  obtain ⟨m, hm, hl⟩ := Option.map_eq_some_iff.mp hlayer.symm
  rw [hm, Option.map_some, Option.map_some, Option.some.injEq] at hpreds
  exact hP m n hl.symm hpreds (hg h m hm)

section Stage

variable {w : Workspace} (hg : w.graph.Framed)

include hg

/-- Annotation visits every layer, if a record can be made for each. -/
theorem ensures_annotateAll_order {record : Handle → Work QuantRecord}
    (hrecord : ∀ {u pre h hs}, Annotating w.graph u.graph pre (h :: hs) →
      Work.Ensures Large (record h) u fun _ v => v.graph = u.graph) :
    Work.Ensures Large (annotateAll record w.graph.order) w fun _ v =>
      Annotated w.graph v.graph := by
  have ha : Annotating w.graph w.graph [] w.graph.order :=
    ⟨hg, rfl, fun _ => rfl, fun _ => rfl, fun _ hk => by contradiction⟩
  exact (ensures_annotateAll hrecord ha).mono fun _ v hv => hv.annotated

theorem ensures_inputName : Work.Ensures Large inputName w fun _ v => v = w := by
  simp only [inputName, Work.ensures_bind, Work.ensures_graph]
  cases hf : w.graph.input? with
  | none => simp only [Work.ensures_pure]
  | some h =>
      obtain ⟨n, hn⟩ := hg.exists_get? (List.mem_of_head? hf)
      simp only [Work.ensures_bind, Work.ensures_node hn, Work.ensures_pure]

/-- Annotation is safe and gives every layer a record. -/
theorem ensures_annotate (table : Option Table) (format : NumberFormat) :
    Work.Ensures Large (annotate table format) w fun _ v => Annotated w.graph v.graph := by
  simp only [annotate, Work.ensures_bind, Work.ensures_graph]
  cases format.kind with
  | float => exact ensures_annotateAll_order hg fun ha => ensures_uniform ha format
  | integer =>
      refine Work.ensures_bind.mpr ((ensures_inputName hg).mono fun name v hv => ?_)
      subst hv
      cases table with
      | none => exact Work.ensures_report.mpr rfl
      | some t =>
          dsimp only
          split
          · exact Work.ensures_report.mpr rfl
          · exact ensures_annotateAll_order hg fun ha => ensures_resolve ha t format

end Stage

end Calibration

end NeuralC
