import Mathlib.Data.List.Induction
import NeuralC.Proofs.Graph.Histories
import NeuralC.Proofs.Memory.Placement

/-!
# NeuralC.Proofs.Memory.Execution

Running the layers of a graph on the memory of its plan.  A run is given by the
cell that each output is read from and the cell it is written to, so the run
that keeps every output in a cell of its own, and the run that shares pools, are
two cases of one definition.

Main statement: `pooled_run_refines_direct`.  Every operand is found intact, and
the caller gets the output that the layers compute without any sharing.
-/

namespace NeuralC.Memory

open NeuralC.Graph

/-! ## Runs -/

section Runs

variable {α κ : Type} [DecidableEq κ]

/-- The memory after one layer has read its operands and written its output. -/
def runLayer (g : Graph) (meaning : Node → List α → α) (source target : Handle → κ)
    (memory : κ → α) (h : Handle) : κ → α :=
  match g.get? h with
  | none => memory
  | some n =>
    Function.update memory (target h) (meaning n (n.preds.map fun p => memory (source p)))

def runLayers (g : Graph) (meaning : Node → List α → α) (source target : Handle → κ)
    (memory : κ → α) (hs : List Handle) : κ → α :=
  hs.foldl (runLayer g meaning source target) memory

/-- The outputs of all layers, each in a cell of its own. -/
def directValues (g : Graph) (meaning : Node → List α → α) (start : Handle → α) : Handle → α :=
  runLayers g meaning id id start g.order

variable {g : Graph} {meaning : Node → List α → α} {source target : Handle → κ}
  {memory : κ → α} {h : Handle} {n : Node}

/-- A layer reads its operands where they are found and writes one cell. -/
theorem runLayer_of_get? (hn : g.get? h = some n) :
    runLayer g meaning source target memory h = Function.update memory (target h)
      (meaning n (n.preds.map fun p => memory (source p))) := by
  rw [runLayer, hn]

/-- All other cells keep what they hold. -/
theorem runLayer_of_ne {c : κ} (hc : c ≠ target h) :
    runLayer g meaning source target memory h c = memory c := by
  cases hn : g.get? h with
  | none => rw [runLayer, hn]
  | some n => rw [runLayer_of_get? hn, Function.update_of_ne hc]

/-- A cell that no layer writes keeps what it holds. -/
theorem runLayers_of_forall_ne {c : κ} {hs : List Handle} (hc : ∀ h ∈ hs, c ≠ target h) :
    runLayers g meaning source target memory hs c = memory c := by
  induction hs generalizing memory with
  | nil => rfl
  | cons k hs ih =>
      rw [runLayers, List.foldl_cons, ← runLayers,
        ih fun h hh => hc h (List.mem_cons_of_mem k hh), runLayer_of_ne (hc k List.mem_cons_self)]

/-- A run ends with its last layer. -/
theorem runLayers_append_singleton {hs : List Handle} :
    runLayers g meaning source target memory (hs ++ [h]) =
      runLayer g meaning source target (runLayers g meaning source target memory hs) h := by
  rw [runLayers, List.foldl_append, List.foldl_cons, List.foldl_nil, runLayers]

end Runs

/-! ## Direct values -/

/-- A layer in a cell of its own computes from the final values of its operands. -/
theorem directValues_eq {α : Type} {g : Graph} {meaning : Node → List α → α} {start : Handle → α}
    {h : Handle} {n : Node} (hg : g.Sequenced) (hn : g.get? h = some n) :
    directValues g meaning start h = meaning n (n.preds.map (directValues g meaning start)) := by
  obtain ⟨xs, ys, ho⟩ := List.append_of_mem (hg.mem_of_get? hn)
  have hnd : (xs ++ h :: ys).Nodup := ho ▸ hg.nodup
  -- What is written before the layer stays as it is from there on.
  have hkeep : ∀ p ∈ xs, directValues g meaning start p =
      runLayers g meaning id id start xs p := by
    intro p hp
    rw [directValues, ho, runLayers, List.foldl_append]
    refine runLayers_of_forall_ne fun k hk hpk => ?_
    exact List.disjoint_of_nodup_append hnd hp (hpk ▸ hk)
  have hh : directValues g meaning start h =
      meaning n (n.preds.map (runLayers g meaning id id start xs)) := by
    rw [directValues, ho, runLayers, List.foldl_append, List.foldl_cons]
    refine (runLayers_of_forall_ne fun k hk hpk => ?_).trans ?_
    · have hnot := (List.nodup_cons.mp hnd.of_append_right).1
      exact hnot (hpk ▸ hk)
    · rw [runLayer_of_get? hn]
      exact Function.update_self _ _ _
  rw [hh]
  congr 1
  exact List.map_congr_left fun p hp => (hkeep p (hg.mem_of_preds ho hn hp)).symm

/-! ## Cells -/

/-- The memory that generated code runs on. -/
inductive Cell where
  /-- The caller's input. -/
  | input
  /-- The caller's output. -/
  | output
  /-- A pool, by its number. -/
  | pool (index : Nat)
deriving DecidableEq, Repr

namespace Plan

/-- Where an operand is read from. -/
def source (p : Plan) (g : Graph) (h : Handle) : Cell :=
  if g.input? = some h then .input else .pool (p.poolIndex h)

/-- Where an output is written to. -/
def target (p : Plan) (g : Graph) (h : Handle) : Cell :=
  if g.output? = some h then .output else p.source g h

/-- The memory after some layers of a graph, on the cells of a plan. -/
def run {α : Type} (p : Plan) (g : Graph) (meaning : Node → List α → α) (memory : Cell → α)
    (hs : List Handle) : Cell → α :=
  runLayers g meaning (p.source g) (p.target g) memory hs

end Plan

section Shared

variable {g : Graph} {plan : Plan} {xs ys : List Handle} {h : Handle}
  (hg : g.Sequenced) (hl : (layout g).2 = .ok plan) (ho : g.order = xs ++ h :: ys)

theorem output?_eq_some_of_order (ho : g.order = xs ++ [h]) : g.output? = some h := by
  rw [output?, ho, List.getLast?_concat]

include hg ho in
theorem output?_ne_of_order (hys : ys ≠ []) : g.output? ≠ some h := by
  intro hout
  obtain ⟨zs, hzs⟩ := List.getLast?_eq_some_iff.mp hout
  have hlen := idxOf_of_order_eq hg.nodup hzs
  rw [idxOf_of_order_eq hg.nodup ho] at hlen
  have hsize := congrArg List.length (hzs.symm.trans ho)
  have hpos := List.length_pos_of_ne_nil hys
  simp only [List.length_append, List.length_cons, List.length_nil] at hsize
  omega

include ho in
/-- Only the last layer writes elsewhere than it is read. -/
theorem target_of_order (hg : g.Sequenced) (hys : ys ≠ []) : plan.target g h = plan.source g h :=
  if_neg (output?_ne_of_order hg ho hys)

include hg hl ho in
/-- An output in the cell of an earlier one is placed with regard to it. -/
theorem placed_of_source_eq (hys : ys ≠ []) {a : Handle} (ha : a ∈ xs)
    (hsource : plan.source g a = plan.source g h) :
    ∃ f before n, xs = f :: before ∧ a ∈ before ∧
      (∀ x ∈ before, plan.source g x = .pool (plan.poolIndex x)) ∧
      plan.poolIndex a = plan.poolIndex h ∧ g.get? h = some n ∧
      Placed g plan.poolIndex before h n := by
  cases hxs : xs with
  | nil => rw [hxs] at ha; contradiction
  | cons f before =>
      have hf : g.input? = some f := by rw [input?, ho, hxs]; rfl
      have hnd : (f :: before ++ h :: ys).Nodup := hxs ▸ ho ▸ hg.nodup
      have hpool : ∀ x ∈ before ++ h :: ys, plan.source g x = .pool (plan.poolIndex x) := by
        intro x hx
        refine if_neg fun hin => ?_
        rw [hf] at hin
        injection hin with hin
        exact (List.nodup_cons.mp hnd).1 (hin ▸ hx)
      have hbefore : ∀ x ∈ before, plan.source g x = .pool (plan.poolIndex x) :=
        fun x hx => hpool x (List.mem_append_left _ hx)
      rw [hpool h (List.mem_append_right _ List.mem_cons_self)] at hsource
      have haf : a ≠ f := by
        rintro rfl
        rw [Plan.source, if_pos hf] at hsource
        contradiction
      have hab : a ∈ before := (List.mem_cons.mp (hxs ▸ ha)).resolve_left haf
      rw [hbefore a hab] at hsource
      injection hsource with hindex
      have hint : interior g = before ++ h :: ys.dropLast := by
        rw [interior, ho, hxs, List.cons_append, List.drop_one, List.tail_cons,
          List.dropLast_append_of_ne_nil (List.cons_ne_nil h ys), List.dropLast_cons_of_ne_nil hys]
      obtain ⟨n, hn, hplaced⟩ := (placed_of_layout hg.nodup hl).2 _ _ _ hint
      exact ⟨f, before, n, rfl, hab, hbefore, hindex, hn, hplaced⟩

/-! ## The invariant of a run -/

variable {α : Type} {meaning : Node → List α → α} {memory : Cell → α}

/-- Outputs that are still to be read are in their cells. -/
def Intact (g : Graph) (plan : Plan) (value : Handle → α) (done : List Handle)
    (memory : Cell → α) : Prop :=
  ∀ a ∈ done, done.length ≤ lastRead g a → memory (plan.source g a) = value a

include hg ho in
/-- The layer whose turn it is finds its operands. -/
theorem Intact.operand {value : Handle → α} (hi : Intact g plan value xs memory) {n : Node}
    (hn : g.get? h = some n) {p : Handle} (hp : p ∈ n.preds) :
    memory (plan.source g p) = value p := by
  refine hi p (hg.mem_of_preds ho hn hp) ?_
  rw [← idxOf_of_order_eq hg.nodup ho]
  exact le_lastRead hg hn hp

variable {start : Handle → α}

include hg ho in
/-- So it computes the output that it has without sharing. -/
theorem Intact.output (hi : Intact g plan (directValues g meaning start) xs memory) {n : Node}
    (hn : g.get? h = some n) :
    meaning n (n.preds.map fun p => memory (plan.source g p)) = directValues g meaning start h := by
  rw [directValues_eq hg hn]
  congr 1
  exact List.map_congr_left fun p hp => hi.operand hg ho hn hp

include hg hl ho in
/-- A cell with an output that is still to be read is only written to with the same
value again. -/
theorem Intact.output_eq (hflat : ∀ n v, n.layer.kind = .flatten → meaning n [v] = v)
    (hi : Intact g plan (directValues g meaning start) xs memory) (hys : ys ≠ []) {a : Handle}
    (ha : a ∈ xs) (hread : xs.length < lastRead g a)
    (hsource : plan.source g a = plan.source g h) :
    directValues g meaning start h = directValues g meaning start a := by
  obtain ⟨f, before, n, _, hab, hbefore, hindex, hn, hplaced⟩ :=
    placed_of_source_eq hg hl ho hys ha hsource
  cases hplaced with
  | free hfree =>
      have hle := (hfree a hab hindex).2
      rw [idxOf_of_order_eq hg.nodup ho] at hle
      omega
  | reused q hkind hpreds hq hqh =>
      have hqa : plan.source g q = plan.source g a := by
        rw [hbefore q hq, hbefore a hab, hqh, hindex]
      calc directValues g meaning start h
          = meaning n [directValues g meaning start q] := by
            rw [directValues_eq hg hn, hpreds, List.map_singleton]
        _ = directValues g meaning start q := hflat n _ hkind
        _ = memory (plan.source g q) := (hi.operand hg ho hn (by simp [hpreds])).symm
        _ = memory (plan.source g a) := by rw [hqa]
        _ = directValues g meaning start a := hi a ha (Nat.le_of_lt hread)

include hg hl in
/-- What is still to be read stays in its cell, up to the last layer. -/
theorem intact_run (hflat : ∀ n v, n.layer.kind = .flatten → meaning n [v] = v)
    {done rest : List Handle} (ho : g.order = done ++ rest) (hrest : rest ≠ []) :
    Intact g plan (directValues g meaning start) done (plan.run g meaning memory done) := by
  -- The run is taken apart at its end, where the memory changes.
  induction done using List.reverseRecOn generalizing rest with
  | nil => exact fun a ha => absurd ha List.not_mem_nil
  | append_singleton xs h ih =>
      rw [List.append_assoc, List.singleton_append] at ho
      have hi := ih ho (List.cons_ne_nil h rest)
      obtain ⟨n, hn⟩ := hg.exists_get? (ho ▸ List.mem_append_right xs List.mem_cons_self)
      intro a ha hread
      rw [Plan.run, runLayers_append_singleton, runLayer_of_get? hn,
        target_of_order ho hg hrest, ← Plan.run, hi.output hg ho hn]
      rw [List.length_append, List.length_singleton] at hread
      by_cases hsource : plan.source g a = plan.source g h
      · rw [hsource, Function.update_self]
        rcases List.mem_append.mp ha with ha | ha
        · exact hi.output_eq hg hl ho hflat hrest ha hread hsource
        · rw [List.mem_singleton.mp ha]
      · rw [Function.update_of_ne hsource]
        rcases List.mem_append.mp ha with ha | ha
        · exact hi a ha (Nat.le_of_succ_le hread)
        · exact absurd (by rw [List.mem_singleton.mp ha]) hsource

end Shared

/-! ## Refinement -/

/-- Running the layers of a graph on shared pools gives what they compute without
sharing: each finds the outputs of its operands where the plan has put them, and the
last leaves its output with the caller.  Only a layer that does not change its operand
is written over it. -/
theorem pooled_run_refines_direct {α : Type} {w w' : Workspace} {plan : Plan}
    (hg : w.graph.Sequenced) (ha : allocate w = .ok plan w') (meaning : Node → List α → α)
    (hflat : ∀ n v, n.layer.kind = .flatten → meaning n [v] = v) (start : Handle → α)
    (memory : Cell → α) :
    let g := w.graph
    let value := directValues g meaning start
    (∀ done h rest n, g.order = done ++ h :: rest → g.get? h = some n → ∀ p ∈ n.preds,
        plan.run g meaning memory done (plan.source g p) = value p) ∧
      (∀ h, g.output? = some h → plan.run g meaning memory g.order .output = value h) ∧
      (∀ h n, g.get? h = some n → ∀ p ∈ n.preds, plan.target g h = plan.source g p →
        n.layer.kind = .flatten ∧ 2 ≤ g.order.idxOf h) ∧
      ∀ h ∈ interior g, 0 < plan.poolIndex h ∧ plan.poolIndex h ≤ plan.pools.length := by
  intro g value
  have hl := (exists_allocate.mp ⟨w', ha⟩).1
  refine ⟨?_, ?_, ?_, ?_⟩
  · intro done h rest n ho hn p hp
    exact (intact_run hg hl hflat ho (List.cons_ne_nil h rest)).operand hg ho hn hp
  · intro h hout
    obtain ⟨xs, ho⟩ := List.getLast?_eq_some_iff.mp hout
    have hi : Intact g plan value xs (plan.run g meaning memory xs) :=
      intact_run hg hl hflat ho (List.cons_ne_nil h [])
    obtain ⟨n, hn⟩ := hg.exists_get? (ho ▸ List.mem_append_right xs List.mem_cons_self)
    rw [ho, Plan.run, runLayers_append_singleton, runLayer_of_get? hn, Plan.target, if_pos hout,
      Function.update_self, ← Plan.run]
    exact hi.output hg ho hn
  · intro h n hn p hp hcell
    obtain ⟨xs, ys, ho⟩ := List.append_of_mem (hg.mem_of_get? hn)
    have hys : ys ≠ [] := by
      rintro rfl
      rw [Plan.target, if_pos (output?_eq_some_of_order ho), Plan.source] at hcell
      split at hcell <;> contradiction
    rw [target_of_order ho hg hys] at hcell
    obtain ⟨f, before, m, hxs, hpb, _, hindex, hm, hplaced⟩ :=
      placed_of_source_eq hg hl ho hys (hg.mem_of_preds ho hn hp) hcell.symm
    rw [hn] at hm
    injection hm with hm
    subst hm
    cases hplaced with
    | free hfree => exact absurd hp (hfree p hpb hindex).1
    | reused q hkind _ _ _ =>
        refine ⟨hkind, ?_⟩
        rw [idxOf_of_order_eq hg.nodup ho, hxs, List.length_cons]
        have hpos := List.length_pos_of_mem hpb
        omega
  · intro h hh
    have ht := (placed_of_layout hg.nodup hl).1
    exact ⟨Nat.pos_of_ne_zero (ht.mem_iff.mp hh), Plan.poolIndex_le_length⟩

/-- Calls that build seven layers in a row: the second is read by a layer that writes
over it and by one behind that, and its pool is used once more later. -/
def sharedPools : List Edit := [
  .addInput (.source "x" [1, 2]),
  .insert ⟨"a", [[1, 2]], [[1, 2]], .float32, .activation .relu⟩ [0] [],
  .insert ⟨"f", [[1, 2]], [[2]], .float32, .flatten⟩ [1] [],
  .insert ⟨"b", [[1, 2]], [[2]], .float32, .activation .relu⟩ [1] [],
  .insert ⟨"c", [[2], [2]], [[2]], .float32, .add .linear⟩ [2, 3] [],
  .insert ⟨"d", [[2]], [[2]], .float32, .activation .relu⟩ [4] [],
  .insert ⟨"e", [[2]], [[2]], .float32, .activation .relu⟩ [5] []]

/-- A meaning that tells the layers apart. -/
def counting (n : Node) (operands : List Nat) : Nat :=
  match n.layer.kind with
  | .input => 7
  | .flatten => operands.foldl (· + ·) 0
  | _ => operands.foldl (· + ·) 1

def sharedPlan : Plan where
  pools := [⟨[1, 2, 5], 6⟩, ⟨[3], 4⟩, ⟨[4], 5⟩]
  ranges := [(0, ⟨0, 1⟩), (1, ⟨1, 3⟩), (2, ⟨2, 4⟩), (3, ⟨3, 4⟩), (4, ⟨4, 5⟩), (5, ⟨5, 6⟩),
    (6, ⟨6, 6⟩)]
  overwrites := [(1, 2)]

/-- In shared pools the last layer writes what it should, and an operand holds it when it is read.
-/
theorem pooled_run_sharedPools :
    let w := history {} sharedPools
    let run := sharedPlan.run w.graph counting fun _ => 0
    (∃ w', allocate w = .ok sharedPlan w') ∧ run w.graph.order .output = 20 ∧
      run [0, 1, 2] (sharedPlan.source w.graph 1) = 8 := by
  intro w run
  have hw : w.graph.Sequenced :=
    (Workspace.wellFormed_afterAll wellFormed_empty sharedPools).toSequenced
  obtain ⟨w', ha⟩ : ∃ w', allocate w = .ok sharedPlan w' :=
    exists_allocate.mpr ⟨by decide, 16, by decide⟩
  have hflat : ∀ n v, n.layer.kind = .flatten → counting n [v] = v := by
    intro n v hk
    simp [counting, hk]
  obtain ⟨hoperand, houtput, _⟩ :=
    pooled_run_refines_direct hw ha counting hflat (fun _ => 0) (fun _ => 0)
  refine ⟨⟨w', ha⟩, ?_, ?_⟩
  · exact (houtput 6 (by decide)).trans (by decide)
  · exact (hoperand [0, 1, 2] 3 [4, 5, 6] _ (by decide) rfl 1 (by decide)).trans (by decide)

end NeuralC.Memory
