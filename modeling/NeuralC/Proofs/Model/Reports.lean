import NeuralC.Proofs.Model.Progress
import NeuralC.Proofs.Model.Rearranged

/-!
# NeuralC.Proofs.Model.Reports

Where a model description that cannot be read is reported.  Every reader of a
declaration reports its own line and nothing else (`ReportsAt`), and the line of
a declaration is the line that it stands on, which is neither blank nor a
comment (`StatesAt`).  A layer is only added behind layers that are there, so
the graph never refuses one (`Graph.exists_insert_last`), and no report of the
graph's own comes out.

What is not reported is a weight whose leading dimensions multiply to more than a
size can be: the reading ends there without a report (`Overflows`).

Together: a description is read, or a line of it is reported that states
something, or, when its lines can be read and none declares a layer, line 0, or
it overflows (`parse_reports_line`).
-/

namespace NeuralC

/-! ## Layers behind others -/

/-- A node behind nodes that are there is not refused. -/
theorem Graph.exists_insert_last {g : Graph} (hg : g.order ≠ []) (layer : Layer)
    {preds : List Handle} (hpreds : ∀ p ∈ preds, g.contains p = true) :
    ∃ g' h, g.insert layer preds [] = .ok (g', h) := by
  have hplace : g.insertionPoint [] = g.order.length := rfl
  have hknown : (preds ++ []).find? (fun h => !g.contains h) = none := by
    simpa using hpreds
  have hearly : preds.find? (fun p => (g.position? p).any (g.order.length ≤ ·)) = none := by
    rw [List.find?_eq_none]
    intro p _
    cases hp : g.position? p with
    | none => simp
    | some i =>
        obtain ⟨hmem, rfl⟩ := Graph.position?_eq_some.mp hp
        simpa using List.idxOf_lt_length_of_mem hmem
  have hempty : ¬ g.order.isEmpty = true := by simpa using hg
  have hfirst : ¬ g.order.length = 0 := by simpa using hg
  have hinsert : g.insertPlace layer preds [] = .ok g.order.length := by
    unfold Graph.insertPlace
    simp only [if_neg hempty, hknown, hplace, if_neg hfirst, hearly]
  unfold Graph.insert
  simp only [hinsert]
  exact ⟨_, _, rfl⟩

namespace Model

open NeuralC.Text

/-! ## Reports about one line -/

/-- The result is a value, or a report about the line of a number. -/
def ReportsAt {α : Type} (line : Nat) : Except Diagnostic α → Prop
  | .ok _ => True
  | .error e => ∃ cause, e = .parse line cause

namespace ReportsAt

variable {α β : Type} {line : Nat}

theorem ok (a : α) : ReportsAt line (.ok a : Except Diagnostic α) := trivial

/-- A sequence reports at a line if each part does. -/
theorem bind {x : Except Diagnostic α} {f : α → Except Diagnostic β} (hx : ReportsAt line x)
    (hf : ∀ a, x = .ok a → ReportsAt line (f a)) : ReportsAt line (x >>= f) := by
  cases x with
  | ok a => exact hf a rfl
  | error e => exact hx

theorem mapM {f : α → Except Diagnostic β} (hf : ∀ a, ReportsAt line (f a)) (as : List α) :
    ReportsAt line (as.mapM f) := by
  induction as with
  | nil => exact ok []
  | cons a as ih =>
      rw [List.mapM_cons]
      exact (hf a).bind fun _ _ => ih.bind fun _ _ => ok _

theorem ite {p : Prop} [Decidable p] {x y : Except Diagnostic α} (hx : p → ReportsAt line x)
    (hy : ¬p → ReportsAt line y) : ReportsAt line (if p then x else y) := by
  split
  · next hp => exact hx hp
  · next hp => exact hy hp

end ReportsAt

namespace LayerLine

variable (d : LayerLine)

/-- A fault of a layer is reported at the layer's line. -/
theorem reportsAt_fault {α : Type} (cause : ModelCause) :
    ReportsAt d.line (d.fault cause : Except Diagnostic α) := ⟨cause, rfl⟩

theorem reportsAt_allow (keys : List String) : ReportsAt d.line (d.allow keys) := by
  unfold allow
  split
  · exact d.reportsAt_fault _
  · exact .ok _

/-- A parameter that cannot be read is reported at the layer's line. -/
theorem reportsAt_parse {α : Type} (key : String) (read : List Char → Option α)
    (text : List Char) : ReportsAt d.line (d.parse key read text) := by
  unfold parse
  split
  · exact .ok _
  · exact d.reportsAt_fault _

theorem reportsAt_number {α : Type} (key : String) (read : List Char → Option α) (default : α) :
    ReportsAt d.line (d.number key read default) := by
  unfold number
  split
  · exact d.reportsAt_parse ..
  · exact .ok _

theorem reportsAt_numberList {α : Type} (key : String) (read : List Char → Option α)
    (default : List α) : ReportsAt d.line (d.numberList key read default) := by
  unfold numberList
  split
  · exact .mapM (fun _ => d.reportsAt_parse ..) _
  · exact .ok _

theorem reportsAt_activation : ReportsAt d.line d.activation := by
  unfold activation
  split
  · exact .ok _
  · split
    · exact .ok _
    · exact d.reportsAt_fault _

theorem reportsAt_padding (rank : Nat) : ReportsAt d.line (d.padding rank) := by
  unfold padding
  split
  · exact .ok _
  · refine .mapM (fun pair => ?_) _
    exact (d.reportsAt_parse ..).bind fun _ _ => (d.reportsAt_parse ..).bind fun _ _ => .ok _

theorem reportsAt_slices : ReportsAt d.line d.slices := by
  unfold slices
  split
  · exact d.reportsAt_fault _
  · refine .mapM (fun range => ?_) _
    split
    · exact (d.reportsAt_parse ..).bind fun _ _ => (d.reportsAt_parse ..).bind fun _ _ =>
        (d.reportsAt_parse ..).bind fun _ _ => .ok _
    · exact d.reportsAt_fault _

theorem reportsAt_normMode : ReportsAt d.line d.normMode :=
  .ite (fun _ => .ok _) fun _ => .ite (fun _ => .ok _) fun _ => d.reportsAt_fault _

theorem reportsAt_pooling (rank : Nat) : ReportsAt d.line (d.pooling rank) := by
  unfold pooling
  exact (d.reportsAt_allow _).bind fun _ _ => (d.reportsAt_numberList ..).bind fun _ _ =>
    (d.reportsAt_numberList ..).bind fun _ _ => d.reportsAt_activation.bind fun _ _ => .ok _

variable (weights : List WeightLine)

/-- So is a weight that is missing. -/
theorem reportsAt_require (role : String) : ReportsAt d.line (d.require weights role) := by
  unfold require
  split
  · exact .ok _
  · exact d.reportsAt_fault _

theorem reportsAt_convolution (rank : Nat) : ReportsAt d.line (d.convolution weights rank) := by
  unfold convolution
  exact (d.reportsAt_allow _).bind fun _ _ => (d.reportsAt_require weights _).bind fun _ _ =>
    (d.reportsAt_number ..).bind fun _ _ => (d.reportsAt_numberList ..).bind fun _ _ =>
    (d.reportsAt_numberList ..).bind fun _ _ => (d.reportsAt_number ..).bind fun _ _ =>
    (d.reportsAt_padding _).bind fun _ _ => d.reportsAt_activation.bind fun _ _ => .ok _

theorem reportsAt_dense : ReportsAt d.line (d.dense weights) := by
  unfold dense
  exact (d.reportsAt_allow _).bind fun _ _ => (d.reportsAt_number ..).bind fun _ _ =>
    d.reportsAt_activation.bind fun _ _ => (d.reportsAt_require weights _).bind fun _ _ => .ok _

theorem reportsAt_batchNorm : ReportsAt d.line (d.batchNorm weights) := by
  unfold batchNorm
  refine (d.reportsAt_allow _).bind fun _ _ => d.reportsAt_activation.bind fun _ _ => ?_
  split
  · refine .ite (fun _ => d.reportsAt_fault _) fun _ => ?_
    exact (d.reportsAt_require weights _).bind fun _ _ => .ok _
  · refine (d.reportsAt_require weights _).bind fun _ _ => ?_
    refine (d.reportsAt_require weights _).bind fun _ _ => ?_
    refine (d.reportsAt_number ..).bind fun _ _ => ?_
    dsimp only
    split
    · exact .ok _
    · exact d.reportsAt_fault _

/-- Whatever a layer lacks, its line is reported. -/
theorem reportsAt_layerKind : ReportsAt d.line (d.layerKind weights) := by
  have hallow {α : Type} {keys : List String} {x : Except Diagnostic α} {f : α → LayerKind}
      (hx : ReportsAt d.line x) :
      ReportsAt d.line (d.allow keys >>= fun _ => x >>= fun a => .ok (f a)) :=
    (d.reportsAt_allow keys).bind fun _ _ => hx.bind fun _ _ => .ok _
  unfold layerKind
  split
  case h_1 | h_2 => exact (d.reportsAt_convolution weights _).bind fun _ _ => .ok _
  case h_3 => exact (d.reportsAt_dense weights).bind fun _ _ => .ok _
  case h_4 | h_5 | h_6 | h_7 => exact (d.reportsAt_pooling _).bind fun _ _ => .ok _
  case h_8 | h_9 => exact (d.reportsAt_batchNorm weights).bind fun _ _ => .ok _
  case h_10 | h_11 => exact hallow d.reportsAt_activation
  case h_12 | h_13 => exact (d.reportsAt_allow _).bind fun _ _ => .ok _
  case h_14 | h_17 => exact hallow (d.reportsAt_number ..)
  case h_15 | h_16 => exact hallow (d.reportsAt_padding _)
  case h_18 => exact hallow d.reportsAt_slices
  case h_19 | h_21 | h_22 => exact hallow (d.reportsAt_numberList ..)
  case h_20 => exact hallow d.reportsAt_normMode
  case h_23 => exact d.reportsAt_fault _

end LayerLine

/-! ## Adding layers -/

/-- An operand that is not declared is reported at its reader's line. -/
theorem reportsAt_operand (g : Graph) (l : LayerLine) (name : String) :
    ReportsAt l.line (operand g l name) := by
  unfold operand
  split
  · exact .ok _
  · exact l.reportsAt_fault _

namespace Built

variable {ls : List LayerLine} {weights : List WeightLine} {g : Graph}

/-- A layer that cannot be added is reported at its line: its operands are found in the graph, so
the graph itself does not refuse it. -/
theorem reportsAt_addLayer (hg : Built ls weights g) (hls : ls ≠ []) (l : LayerLine) :
    ReportsAt l.line (Model.addLayer weights g l) := by
  unfold Model.addLayer
  refine .ite (fun _ => l.reportsAt_fault _) fun _ => ?_
  refine (ReportsAt.mapM (reportsAt_operand g l) _).bind fun preds hpreds => ?_
  refine .ite (fun _ => l.reportsAt_fault _) fun _ => ?_
  refine (l.reportsAt_layerKind weights).bind fun kind _ => ?_
  have hlive : ∀ p ∈ preds, g.contains p = true := by
    intro p hp
    obtain ⟨name, hname⟩ := exists_of_mem_mapM hpreds hp
    obtain ⟨n, hn, -⟩ := find?_eq_some (operand_eq_ok hname)
    exact Graph.contains_iff.mpr ⟨n, hn⟩
  have horder : g.order ≠ [] := by simpa [hg.order_eq] using hls
  dsimp only
  obtain ⟨g', k, hinsert⟩ := Graph.exists_insert_last horder
    ⟨l.name, preds.map fun h => ((g.get? h).map (·.layer.outputShape)).getD [], [l.output],
      .float32, kind⟩ hlive
  rw [hinsert]
  exact .ok _

/-- Of layers that are added one by one, the one that cannot be added is reported. -/
theorem foldlM_addLayer_eq_error (hg : Built ls weights g) (hls : ls ≠ []) {more : List LayerLine}
    {e : Diagnostic} (h : more.foldlM (Model.addLayer weights) g = .error e) :
    ∃ l ∈ more, ∃ cause, e = .parse l.line cause := by
  induction more generalizing ls g with
  | nil => cases h
  | cons l more ih =>
      rw [List.foldlM_cons] at h
      have hreport := hg.reportsAt_addLayer hls l
      cases hadd : Model.addLayer weights g l with
      | error e' =>
          rw [hadd] at h hreport
          cases h
          exact ⟨l, List.mem_cons_self, hreport⟩
      | ok g' =>
          rw [hadd] at h
          obtain ⟨l', hl', hcause⟩ := ih (hg.addLayer hls hadd) (by simp) h
          exact ⟨l', List.mem_cons_of_mem l hl', hcause⟩

end Built

/-- What cannot be built is reported at the line of a declaration, or at line 0 when there is no
layer. -/
theorem build_eq_error {d : Declarations} {e : Diagnostic} (h : build d = .error e) :
    (d.layers = [] ∧ e = .parse 0 .noLayer) ∨
      (∃ l ∈ d.layers, ∃ cause, e = .parse l.line cause) ∨
      ∃ w ∈ d.weights, ∃ cause, e = .parse w.line cause := by
  rw [build] at h
  split at h
  · next hnone =>
    cases h
    exact .inl ⟨hnone, rfl⟩
  · next first rest hlayers =>
    rw [hlayers]
    split at h
    · cases h
      exact .inr (.inl ⟨first, List.mem_cons_self, _, rfl⟩)
    · next hfirst =>
      obtain ⟨hkind, hinputs⟩ : first.kind = "input" ∧ first.inputs = [] := by
        simpa [not_or] using hfirst
      split at h
      · -- the empty graph takes every input
        next hadd => cases hadd
      · next g₀ h₀ hadd =>
        have hbuilt : Built [first] d.weights g₀ := Built.singleton hkind hinputs hadd
        cases hfold : rest.foldlM (addLayer d.weights) g₀ with
        | error e' =>
            rw [hfold] at h
            cases h
            obtain ⟨l, hl, hcause⟩ := hbuilt.foldlM_addLayer_eq_error (by simp) hfold
            exact .inr (.inl ⟨l, List.mem_cons_of_mem first hl, hcause⟩)
        | ok g =>
            rw [hfold] at h
            dsimp only [bind, Except.bind] at h
            split at h
            · next w hfound =>
              cases h
              exact .inr (.inr ⟨w, List.mem_of_find?_eq_some hfound, _, rfl⟩)
            · cases h

/-! ## Lines that state something -/

/-- The line of a number, counted from `first`, states something: text is left of it when its
comment is removed. -/
def StatesAt (raws : List (List Char)) (first line : Nat) : Prop :=
  ∃ i raw, raws[i]? = some raw ∧ content raw ≠ [] ∧ line = first + i

/-- A line further down states something still. -/
theorem StatesAt.cons {raws : List (List Char)} {first line : Nat}
    (h : StatesAt raws (first + 1) line) (raw : List Char) : StatesAt (raw :: raws) first line := by
  obtain ⟨i, raw', hraw, hcontent, rfl⟩ := h
  exact ⟨i + 1, raw', hraw, hcontent, by omega⟩

/-- A line with content states something. -/
theorem StatesAt.head {raw : List Char} (hraw : content raw ≠ []) (raws : List (List Char))
    (first : Nat) : StatesAt (raw :: raws) first first :=
  ⟨0, raw, rfl, hraw, rfl⟩

def Statement.line : Statement → Nat
  | .layer l => l.line
  | .weight w => w.line

/-- A statement carries the number of its line. -/
theorem line_of_statement {line : Nat} {cs : List Char} {s : Statement}
    (h : statement line cs = .ok s) : s.line = line := by
  rw [statement_moved line line] at h
  obtain ⟨s', -, rfl⟩ := map_eq_ok.mp h
  cases s' <;> rfl

/-- A statement is on a line that states something, and has its number. -/
theorem readLine_eq_some {line : Nat} {raw : List Char} {s : Statement}
    (h : readLine line raw = .ok (some s)) : content raw ≠ [] ∧ s.line = line := by
  rw [readLine] at h
  split at h
  · cases h
  · next hraw =>
    split at h
    · next s' hs =>
      obtain ⟨t, ht, hts⟩ := map_eq_ok.mp h
      cases hts
      rw [Statement.eq_of_counted ht]
      exact ⟨by simpa using hraw, line_of_statement hs⟩
    · cases h

/-- A statement is not read for its number of values, or because the values cannot be counted. -/
theorem counted_eq_error {s : Statement} {f : Failure} (h : s.counted = .error f) :
    ∃ w, s = .weight w ∧
      ((¬w.shape.Counted ∧ f = .overflow) ∨
        w.shape.Counted ∧ ∃ cause, f = .reported (.parse w.line cause)) := by
  cases s with
  | layer l => cases h
  | weight w =>
      refine ⟨w, rfl, WeightLine.counted_eq_error ?_⟩
      cases hw : w.counted with
      | ok v => simp [Statement.counted, hw, Except.map] at h
      | error f' =>
          simp only [Statement.counted, hw, Except.map, Except.error.injEq] at h
          rw [h]

/-- A line that cannot be read states something.  It is reported by its number, unless it gives
a weight whose elements cannot be counted. -/
theorem readLine_eq_error {line : Nat} {raw : List Char} {f : Failure}
    (h : readLine line raw = .error f) :
    content raw ≠ [] ∧
      ((∃ cause, f = .reported (.parse line cause)) ∨
        f = .overflow ∧ ∃ w, statement line (content raw) = .ok (.weight w) ∧
          ¬w.shape.Counted) := by
  rw [readLine] at h
  split at h
  · cases h
  · next hraw =>
    refine ⟨by simpa using hraw, ?_⟩
    split at h
    · next s hs =>
      have hcounted : s.counted = .error f := by
        cases hc : s.counted <;> simp_all [Except.map]
      obtain ⟨w, rfl, ⟨hshape, rfl⟩ | ⟨-, cause, rfl⟩⟩ := counted_eq_error hcounted
      · exact .inr ⟨rfl, w, hs, hshape⟩
      · exact .inl ⟨cause, by rw [← line_of_statement hs]; rfl⟩
    · next cause _ =>
      cases h
      exact .inl ⟨cause, rfl⟩

/-- A line overflows exactly when it gives a weight whose elements cannot be counted. -/
theorem readLine_eq_overflow_iff {line : Nat} {raw : List Char} :
    readLine line raw = .error .overflow ↔
      ∃ w, statement line (content raw) = .ok (.weight w) ∧ ¬w.shape.Counted := by
  constructor
  · intro h
    obtain ⟨-, ⟨cause, hf⟩ | ⟨-, hw⟩⟩ := readLine_eq_error h
    · cases hf
    · exact hw
  · rintro ⟨w, hw, hshape⟩
    have hraw : ¬(content raw).isEmpty = true := by
      intro hempty
      rw [List.isEmpty_iff.mp hempty] at hw
      cases hw
    rw [readLine, if_neg hraw, hw]
    simp only [Statement.counted, WeightLine.counted_eq, if_neg hshape]
    rfl

/-- A second weight for a target is reported at its line. -/
theorem add_eq_error {d : Declarations} {s : Statement} {e : Diagnostic} (h : d.add s = .error e) :
    ∃ cause, e = .parse s.line cause := by
  rw [Declarations.add.eq_def] at h
  split at h
  · cases h
  · split at h
    · cases h
      exact ⟨_, rfl⟩
    · cases h

/-- Lines are read one after another. -/
theorem readLines_cons (d : Declarations) (first : Nat) (raw : List Char)
    (raws : List (List Char)) :
    readLines d first (raw :: raws) =
      readLines d first [raw] >>= fun d' => readLines d' (first + 1) raws := by
  simp only [readLines]
  split
  · rfl
  · rfl
  · split <;> rfl

/-- One line that cannot be read. -/
theorem readLines_singleton_eq_error {d : Declarations} {first : Nat} {raw : List Char}
    {f : Failure} (h : readLines d first [raw] = .error f) :
    content raw ≠ [] ∧ ((∃ cause, f = .reported (.parse first cause)) ∨
      f = .overflow) := by
  simp only [readLines] at h
  split at h
  · next f' hread =>
    cases h
    obtain ⟨hraw, hcause | ⟨rfl, -⟩⟩ := readLine_eq_error hread
    · exact ⟨hraw, .inl hcause⟩
    · exact ⟨hraw, .inr rfl⟩
  · cases h
  · next s hread =>
    split at h
    · next e hadd =>
      cases h
      obtain ⟨hraw, hline⟩ := readLine_eq_some hread
      obtain ⟨cause, he⟩ := add_eq_error hadd
      exact ⟨hraw, .inl ⟨cause, by rw [he, hline]⟩⟩
    · cases h

/-- A line overflows by itself: what was read before does not matter. -/
theorem readLines_singleton_eq_overflow {d : Declarations} {first : Nat} {raw : List Char} :
    readLines d first [raw] = .error .overflow ↔ readLine first raw = .error .overflow := by
  simp only [readLines]
  split
  · next f hread => simp [hread]
  · next hread => simp [hread]
  · next s hread => cases hadd : d.add s <;> simp [hread]

/-- Lines that cannot be read are reported by the number of one that states something, or
overflow. -/
theorem readLines_eq_error {d : Declarations} {first : Nat} {raws : List (List Char)}
    {f : Failure} (h : readLines d first raws = .error f) :
    (∃ line cause, f = .reported (.parse line cause) ∧ StatesAt raws first line) ∨
      f = .overflow := by
  induction raws generalizing d first with
  | nil => cases h
  | cons raw raws ih =>
      rw [readLines_cons] at h
      cases hfirst : readLines d first [raw] with
      | error f' =>
          rw [hfirst] at h
          cases h
          obtain ⟨hraw, ⟨cause, hf⟩ | hf⟩ := readLines_singleton_eq_error hfirst
          · exact .inl ⟨first, cause, hf, .head hraw raws first⟩
          · exact .inr hf
      | ok d' =>
          rw [hfirst] at h
          obtain ⟨line, cause, hf, hline⟩ | hf := ih h
          · exact .inl ⟨line, cause, hf, hline.cons raw⟩
          · exact .inr hf

/-- Some line gives a weight whose elements cannot be counted, and all lines in front of it are
read. -/
def Overflows (d : Declarations) (first : Nat) (raws : List (List Char)) : Prop :=
  ∃ i raw w, raws[i]? = some raw ∧
    statement (first + i) (content raw) = .ok (.weight w) ∧ ¬w.shape.Counted ∧
    ∃ d', readLines d first (raws.take i) = .ok d'

/-- The text overflows at its first line, or the first line is read and the rest overflows. -/
theorem overflows_cons {d : Declarations} {first : Nat} {raw : List Char}
    {raws : List (List Char)} :
    Overflows d first (raw :: raws) ↔ readLine first raw = .error .overflow ∨
      ∃ d', readLines d first [raw] = .ok d' ∧ Overflows d' (first + 1) raws := by
  rw [readLine_eq_overflow_iff]
  constructor
  · rintro ⟨i, raw', w, hraw, hw, hshape, d', hd'⟩
    cases i with
    | zero =>
        cases hraw
        exact .inl ⟨w, hw, hshape⟩
    | succ i =>
        rw [List.take_succ_cons, readLines_cons] at hd'
        obtain ⟨d₁, hd₁, hrest⟩ := bind_eq_ok.mp hd'
        refine .inr ⟨d₁, hd₁, i, raw', w, hraw, ?_, hshape, d', hrest⟩
        rwa [Nat.add_right_comm, Nat.add_assoc]
  · rintro (⟨w, hw, hshape⟩ | ⟨d₁, hd₁, i, raw', w, hraw, hw, hshape, d', hd'⟩)
    · exact ⟨0, raw, w, rfl, hw, hshape, d, rfl⟩
    · refine ⟨i + 1, raw', w, hraw, ?_, hshape, d', ?_⟩
      · rwa [Nat.add_right_comm, Nat.add_assoc] at hw
      · rw [List.take_succ_cons, readLines_cons]
        exact bind_eq_ok.mpr ⟨d₁, hd₁, hd'⟩

/-- Reading fails on overflow exactly if some line overflows and none before it fails. -/
theorem readLines_eq_overflow_iff {d : Declarations} {first : Nat} {raws : List (List Char)} :
    readLines d first raws = .error .overflow ↔ Overflows d first raws := by
  induction raws generalizing d first with
  | nil => simp [readLines, Overflows]
  | cons raw raws ih =>
      rw [readLines_cons, overflows_cons, ← readLines_singleton_eq_overflow (d := d)]
      cases readLines d first [raw] with
      | error f => simp [bind, Except.bind]
      | ok d' => simp [bind, Except.bind, ih]

/-- What a view takes of statements is on lines that state something. -/
theorem statesAt_of_mem_viewed {α : Type} {view : Except Failure (Option Statement) → Option α}
    {s : α → Statement} (hview : ∀ x a, view x = some a → x = .ok (some (s a))) {first : Nat}
    {raws : List (List Char)} {a : α} (ha : a ∈ viewed view first raws) :
    StatesAt raws first (s a).line := by
  induction raws generalizing first with
  | nil => cases ha
  | cons raw raws ih =>
      rw [viewed_cons, List.mem_append, Option.mem_toList] at ha
      rcases ha with ha | ha
      · obtain ⟨hraw, hline⟩ := readLine_eq_some (hview _ _ ha)
        exact hline.symm ▸ .head hraw raws first
      · exact (ih ha).cons raw

/-- A layer line is a line with content. -/
theorem statesAt_of_mem_layersOf {text : String} {l : LayerLine} (hl : l ∈ layersOf text) :
    StatesAt (lines text.toList) 1 l.line := by
  refine statesAt_of_mem_viewed (s := Statement.layer) (fun x a hx => ?_) hl
  unfold declared? at hx
  split at hx
  · cases hx
    rfl
  · cases hx

/-- A weight line is a line with content. -/
theorem statesAt_of_mem_weightsOf {text : String} {w : WeightLine} (hw : w ∈ weightsOf text) :
    StatesAt (lines text.toList) 1 w.line := by
  refine statesAt_of_mem_viewed (s := Statement.weight) (fun x a hx => ?_) hw
  unfold given? at hx
  split at hx
  · cases hx
    rfl
  · cases hx

/-! ## Descriptions -/

/-- All lines can be read, no weight being given twice, and none declares a layer. -/
structure DeclaresNoLayer (text : String) : Prop where
  faults : faultsOf text = []
  targets : ((weightsOf text).map WeightLine.target).Nodup
  layers : layersOf text = []

theorem StatesAt.ne_zero {raws : List (List Char)} {line : Nat} (h : StatesAt raws 1 line) :
    line ≠ 0 := by
  obtain ⟨i, -, -, -, rfl⟩ := h
  omega

/-- A text that declares no layer is reported as a whole, at no line. -/
theorem parse_of_declaresNoLayer {text : String} (h : DeclaresNoLayer text) :
    parse text = .error (.reported (.parse 0 .noLayer)) := by
  rw [parse, declarations_eq_ok_iff.mpr ⟨h.faults, rfl, h.targets⟩]
  simp only [build, h.layers]
  rfl

/-- A description whose lines are read is reported at line 0 when none of them declares a layer,
and else at a line that states something. -/
theorem build_eq_error_cases {text : String} {d : Declarations}
    (hd : declarations text = .ok d) {e : Diagnostic} (h : build d = .error e) :
    (DeclaresNoLayer text ∧ e = .parse 0 .noLayer) ∨
      ∃ line cause, e = .parse line cause ∧ StatesAt (lines text.toList) 1 line := by
  obtain ⟨hfaults, rfl, htargets⟩ := declarations_eq_ok_iff.mp hd
  obtain ⟨hnone, he⟩ | ⟨l, hl, cause, he⟩ | ⟨w, hw, cause, he⟩ := build_eq_error h
  · exact .inl ⟨⟨hfaults, htargets, hnone⟩, he⟩
  · exact .inr ⟨l.line, cause, he, statesAt_of_mem_layersOf hl⟩
  · exact .inr ⟨w.line, cause, he, statesAt_of_mem_weightsOf hw⟩

/-- A description that is not read is reported at line 0 when its lines can be read and none
declares a layer, and else at a line that states something, unless it overflows. -/
theorem parse_eq_error_cases {text : String} {f : Failure} (h : parse text = .error f) :
    (DeclaresNoLayer text ∧ f = .reported (.parse 0 .noLayer)) ∨
      (∃ line cause, f = .reported (.parse line cause) ∧
        StatesAt (lines text.toList) 1 line) ∨
      f = .overflow := by
  rw [parse] at h
  split at h
  · next f' hread =>
    cases h
    exact .inr (readLines_eq_error hread)
  · next d hd =>
    cases hbuild : build d with
    | ok g => simp [hbuild, orFail] at h
    | error e =>
        rw [hbuild] at h
        cases h
        obtain ⟨hnone, rfl⟩ | ⟨line, cause, rfl, hline⟩ := build_eq_error_cases hd hbuild
        · exact .inl ⟨hnone, rfl⟩
        · exact .inr (.inl ⟨line, cause, rfl, hline⟩)

/-- Reading overflows exactly when it comes to a weight whose elements cannot be counted. -/
theorem parse_eq_overflow_iff {text : String} :
    parse text = .error .overflow ↔ Overflows ⟨[], []⟩ 1 (lines text.toList) := by
  rw [← readLines_eq_overflow_iff, ← declarations, parse]
  cases declarations text with
  | error f => simp
  | ok d => cases hbuild : build d <;> simp [orFail, hbuild]

/-- Reading a description comes to an end, with a graph or with a report about a line of it, never
with one of the graph's own, unless it comes to a weight whose elements cannot be counted: then, and
only then, it overflows.  The loops over a line end when they are given more rounds than it
has characters.  The line that is reported is 0 exactly when all lines can be read and none declares
a layer; otherwise it is the number, counted from 1, of a line on which something stands besides a
comment.  That holds of the lines of all weights, so it does not hang on which of several unused
weights is reported. -/
theorem parse_reports_line (text : String) :
    (∀ (α : Type) (close : Char) (item : String → Except ModelCause α),
      Round.Ends (itemRound close item) (items close item)) ∧
    (∀ name, Round.Ends (paramRound name) (params name)) ∧
    ((∃ g, parse text = .ok g) ∨
      (∃ line cause, parse text = .error (.reported (.parse line cause)) ∧
        (line = 0 ↔ DeclaresNoLayer text) ∧
        (line ≠ 0 → StatesAt (lines text.toList) 1 line)) ∨
      parse text = .error .overflow) ∧
    (parse text = .error .overflow ↔ Overflows ⟨[], []⟩ 1 (lines text.toList)) ∧
    (DeclaresNoLayer text → parse text = .error (.reported (.parse 0 .noLayer))) ∧
    ∀ w ∈ weightsOf text, StatesAt (lines text.toList) 1 w.line := by
  refine ⟨fun _ => ends_items, ends_params, ?_, parse_eq_overflow_iff, parse_of_declaresNoLayer,
    fun _ => statesAt_of_mem_weightsOf⟩
  cases hparse : parse text with
  | ok g => exact .inl ⟨g, rfl⟩
  | error f =>
      refine .inr ?_
      obtain ⟨hnone, rfl⟩ | ⟨line, cause, rfl, hline⟩ | rfl := parse_eq_error_cases hparse
      · exact .inl ⟨0, .noLayer, rfl, iff_of_true rfl hnone, fun h => absurd rfl h⟩
      · refine .inl ⟨line, cause, rfl, iff_of_false hline.ne_zero fun hnone => ?_, fun _ => hline⟩
        have hzero := hparse.symm.trans (parse_of_declaresNoLayer hnone)
        cases hzero
        exact hline.ne_zero rfl
      · exact .inr rfl

/-- A weight of 2^64 elements for which no value is given. -/
def crowdedText : String :=
  "x = input() -> [1, 2]\nz = dense(x) -> [1, 2]\nz.kernel [4294967296, 4294967296] =\n"

theorem parse_of_readLines {text : String} {cs : List Char} {f : Failure} (hcs : text.toList = cs)
    (hread : readLines ⟨[], []⟩ 1 (lines cs) = .error f) : parse text = .error f := by
  rw [parse, declarations, hcs, hread]

/-- The missing values are not reported: the description is neither read nor refused. -/
theorem parse_crowdedText : parse crowdedText = .error .overflow :=
  parse_of_readLines String.toList_ofList (by decide +kernel)

end Model

end NeuralC
