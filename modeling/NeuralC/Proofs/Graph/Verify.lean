import NeuralC.Proofs.Graph.WellFormed

/-!
# NeuralC.Proofs.Graph.Verify

What verification checks.  `Graph.verify` walks the order and stops at the
first fault; here the walk is unrolled once.  `NodeSound` is the contract of one
node in words, `verifyFrom_eq_ok` says that a walk passes when every node of it
is sound, and `verifyFrom_eq_error` where a walk that fails has stopped.

From these follow what the passes need: a graph that verification accepts is
linked (`linked_of_verify`) and has no sink but the last node
(`succs_eq_nil_of_verify`).
-/

namespace NeuralC

namespace Graph

/-! ## One node -/

/-- A check that reports a cause finds none when its condition fails and the
rest finds none. -/
theorem ite_some_eq_none {α : Type} {p : Prop} [Decidable p] {a : α} {rest : Option α} :
    (if p then some a else rest) = none ↔ ¬p ∧ rest = none := by
  split <;> simp [*]

/-- An operand is accepted that exists, counts the edge as often and stands in front. -/
theorem predFault?_eq_none {g : Graph} {h : Handle} {n : Node} {place : Nat} {p : Handle} :
    g.predFault? h n place p = none ↔
      ∃ pred i, g.get? p = some pred ∧ pred.succs.count h = n.preds.count p ∧
        g.position? p = some i ∧ i < place := by
  unfold predFault?
  cases g.get? p with
  | none => simp
  | some pred =>
      simp only [ite_some_eq_none]
      cases g.position? p with
      | none => simp
      | some i => simp

/-- A reader is accepted that exists and counts the edge as often. -/
theorem succFault?_eq_none {g : Graph} {h : Handle} {n : Node} {s : Handle} :
    g.succFault? h n s = none ↔
      ∃ succ, g.get? s = some succ ∧ succ.preds.count h = n.succs.count s := by
  unfold succFault?
  cases g.get? s with
  | none => simp
  | some succ => simp

/-- What the contract asks of the node `n` at `place`, where `earlier` are the
names in front of it. -/
structure NodeSound (g : Graph) (earlier : List String) (h : Handle) (n : Node) (place : Nat) :
    Prop where
  name_new : n.name ∉ earlier
  source : g.input? = some h → n.layer.isInput = true ∧ n.preds = []
  inner : g.input? ≠ some h → n.layer.isInput = false ∧ n.preds ≠ []
  sink : place + 1 = g.order.length ↔ n.succs = []
  preds_sound : ∀ p ∈ n.preds, ∃ pred i, g.get? p = some pred ∧
    pred.succs.count h = n.preds.count p ∧ g.position? p = some i ∧ i < place
  succs_sound : ∀ s ∈ n.succs, ∃ succ, g.get? s = some succ ∧
    succ.preds.count h = n.succs.count s

/-- A node is accepted exactly when it is sound. -/
theorem nodeFault?_eq_none {g : Graph} {earlier : List String} {h : Handle} {n : Node}
    {place : Nat} :
    g.nodeFault? earlier h n place = none ↔ NodeSound g earlier h n place := by
  simp only [nodeFault?, ite_some_eq_none, Option.or_eq_none_iff, List.findSome?_eq_none_iff,
    predFault?_eq_none, succFault?_eq_none]
  constructor
  · rintro ⟨hname, hsource, hsecond, hpreds, hsink, hlast, hp, hs⟩
    refine ⟨hname, fun hf => ?_, fun hf => ?_, ⟨fun hl => ?_, fun hz => ?_⟩, hp, hs⟩
    · by_contra hc
      exact hsource ⟨hf, by grind⟩
    · exact ⟨by simpa [input?] using fun hi => hsecond ⟨hf, hi⟩, fun hz => hpreds ⟨hf, hz⟩⟩
    · by_contra hc
      exact hlast ⟨hl, hc⟩
    · by_contra hc
      exact hsink ⟨hc, hz⟩
  · intro hn
    refine ⟨hn.name_new, ?_, ?_, ?_, ?_, ?_, hn.preds_sound, hn.succs_sound⟩
    · rintro ⟨hf, hbad⟩
      simp [hn.source hf] at hbad
    · rintro ⟨hf, hi⟩
      simp [(hn.inner hf).1] at hi
    · rintro ⟨hf, hz⟩
      exact (hn.inner hf).2 hz
    · rintro ⟨hl, hz⟩
      exact hl (hn.sink.mpr hz)
    · rintro ⟨hl, hz⟩
      exact hz (hn.sink.mp hl)

/-! ## A walk -/

/-- The names of nodes, the last one first. -/
def namesBefore (g : Graph) (hs : List Handle) : List String :=
  ((hs.filterMap g.get?).map Node.name).reverse

theorem namesBefore_cons {g : Graph} {x : Handle} {m : Node} (hx : g.get? x = some m)
    (hs : List Handle) : g.namesBefore (x :: hs) = g.namesBefore hs ++ [m.name] := by
  simp [namesBefore, hx]

/-- A walk passes when every node of it is sound. -/
theorem verifyFrom_eq_ok {g : Graph} {earlier : List String} {place : Nat} {hs : List Handle} :
    g.verifyFrom earlier place hs = .ok () ↔
      ∀ pre h post, hs = pre ++ h :: post → ∃ n, g.get? h = some n ∧
        NodeSound g (g.namesBefore pre ++ earlier) h n (place + pre.length) := by
  induction hs generalizing earlier place with
  | nil => simp [verifyFrom]
  | cons x xs ih =>
      unfold verifyFrom
      cases hx : g.get? x with
      | none =>
          refine ⟨fun hv => (nomatch hv), fun hall => ?_⟩
          obtain ⟨n, hn, _⟩ := hall [] x xs rfl
          rw [hx] at hn
          contradiction
      | some m =>
          cases hf : g.nodeFault? earlier x m place with
          | some cause =>
              refine ⟨fun hv => (by simp [hf] at hv), fun hall => ?_⟩
              obtain ⟨n, hn, hs⟩ := hall [] x xs rfl
              rw [hx] at hn
              injection hn with hn
              subst hn
              rw [nodeFault?_eq_none.mpr (by simpa [namesBefore] using hs)] at hf
              contradiction
          | none =>
              simp only [hf, ih]
              constructor
              · intro hall pre h post hsplit
                cases pre with
                | nil =>
                    injection hsplit with hxh _
                    subst hxh
                    exact ⟨m, hx, by simpa [namesBefore] using nodeFault?_eq_none.mp hf⟩
                | cons y ys =>
                    injection hsplit with hxy hrest
                    subst hxy
                    obtain ⟨n, hn, hs⟩ := hall ys h post hrest
                    refine ⟨n, hn, ?_⟩
                    rw [namesBefore_cons hx, List.length_cons, Nat.add_comm ys.length,
                      ← Nat.add_assoc]
                    simpa using hs
              · intro hall pre h post hsplit
                obtain ⟨n, hn, hs⟩ := hall (x :: pre) h post (by rw [hsplit]; rfl)
                refine ⟨n, hn, ?_⟩
                rw [namesBefore_cons hx, List.length_cons, Nat.add_comm pre.length,
                  ← Nat.add_assoc] at hs
                simpa using hs

/-- Where a walk that fails has stopped. -/
theorem verifyFrom_eq_error {g : Graph} {earlier : List String} {place : Nat} {hs : List Handle}
    {d : Diagnostic} (hv : g.verifyFrom earlier place hs = .error d) :
    ∃ pre h post, hs = pre ++ h :: post ∧
      (g.get? h = none ∨ ∃ n names cause, g.get? h = some n ∧
        g.nodeFault? names h n (place + pre.length) = some cause ∧
        d = .editing n.name cause) := by
  induction hs generalizing earlier place with
  | nil => simp [verifyFrom] at hv
  | cons x xs ih =>
      unfold verifyFrom at hv
      cases hx : g.get? x with
      | none => exact ⟨[], x, xs, rfl, .inl hx⟩
      | some m =>
          cases hf : g.nodeFault? earlier x m place with
          | some cause =>
              simp only [hx, hf] at hv
              injection hv with hv
              exact ⟨[], x, xs, rfl, .inr ⟨m, earlier, cause, hx, hf, hv.symm⟩⟩
          | none =>
              simp only [hx, hf] at hv
              obtain ⟨pre, h, post, hsplit, hcase⟩ := ih hv
              refine ⟨x :: pre, h, post, by rw [hsplit]; rfl, ?_⟩
              rw [List.length_cons, Nat.add_comm pre.length, ← Nat.add_assoc]
              exact hcase

/-! ## Accepted graphs -/

/-- Every node stands in the order, so that a walk over it meets them all. -/
def Listed (g : Graph) : Prop := ∀ h, g.contains h = true → h ∈ g.order

/-- In a linked graph all nodes are in the order. -/
theorem Linked.listed {g : Graph} (hg : g.Linked) : g.Listed := fun _ => hg.mem_order.mpr

/-- What holds of all nodes in the order holds of every node. -/
theorem Listed.all_get? {g : Graph} {p : Node → Bool} (hl : g.Listed)
    (hall : ∀ h ∈ g.order, (g.get? h).all p = true) {h : Handle} {n : Node}
    (hn : g.get? h = some n) : p n = true := by
  have hp := hall h (hl h (contains_iff.mpr ⟨n, hn⟩))
  rwa [hn, Option.all_some] at hp

section Accepted

variable {g : Graph} (hv : g.verify = .ok ())

include hv

/-- Every node of an accepted graph is sound at its place. -/
theorem nodeSound_of_verify {pre : List Handle} {h : Handle} {post : List Handle}
    (ho : g.order = pre ++ h :: post) :
    ∃ n, g.get? h = some n ∧ NodeSound g (g.namesBefore pre) h n pre.length := by
  unfold verify at hv
  split at hv
  · contradiction
  · obtain ⟨n, hn, hs⟩ := verifyFrom_eq_ok.mp hv pre h post ho
    exact ⟨n, hn, by simpa using hs⟩

/-- No node stands in the order twice, for then its name would. -/
theorem nodup_of_verify : g.order.Nodup := by
  rw [List.nodup_iff_sublist]
  intro h hsub
  obtain ⟨xs, ys, ho, hx, hy⟩ := List.cons_sublist_iff.mp hsub
  obtain ⟨ys₁, ys₂, hys⟩ := List.append_of_mem (List.singleton_sublist.mp hy)
  have ho' : g.order = (xs ++ ys₁) ++ h :: ys₂ := by rw [ho, hys, List.append_assoc]
  obtain ⟨n, hn, hs⟩ := nodeSound_of_verify hv ho'
  refine hs.name_new ?_
  rw [namesBefore, List.mem_reverse, List.mem_map]
  exact ⟨n, List.mem_filterMap.mpr ⟨h, List.mem_append_left _ hx, hn⟩, rfl⟩

/-- A node of an accepted graph is sound at its place in the order. -/
theorem nodeSound_of_mem {h : Handle} (hh : h ∈ g.order) :
    ∃ n names, g.get? h = some n ∧ NodeSound g names h n (g.order.idxOf h) := by
  obtain ⟨pre, post, ho⟩ := List.append_of_mem hh
  obtain ⟨n, hn, hs⟩ := nodeSound_of_verify hv ho
  rw [idxOf_of_order_eq (nodup_of_verify hv) ho]
  exact ⟨n, _, hn, hs⟩

/-- Every node of a graph that verification accepts is sound at its place. -/
theorem nodeSound_of_get? {h : Handle} {n : Node} (hh : h ∈ g.order) (hn : g.get? h = some n) :
    ∃ names, NodeSound g names h n (g.order.idxOf h) := by
  obtain ⟨m, names, hm, hs⟩ := nodeSound_of_mem hv hh
  obtain rfl := Option.some.inj (hn.symm.trans hm)
  exact ⟨names, hs⟩

/-- In an accepted graph every layer but an input has operands. -/
theorem preds_ne_nil_of_verify {h : Handle} {n : Node} (hh : h ∈ g.order)
    (hn : g.get? h = some n) (hi : n.layer.isInput = false) : n.preds ≠ [] := by
  obtain ⟨_, hs⟩ := nodeSound_of_get? hv hh hn
  by_cases hf : g.input? = some h
  · rw [(hs.source hf).1] at hi
    contradiction
  · exact (hs.inner hf).2

/-- In an accepted graph only the last node is a sink. -/
theorem succs_eq_nil_of_verify {h : Handle} {n : Node} (hh : h ∈ g.order)
    (hn : g.get? h = some n) : n.succs = [] ↔ g.output? = some h := by
  obtain ⟨_, hs⟩ := nodeSound_of_get? hv hh hn
  rw [← hs.sink, output?, List.getLast?_eq_getElem?]
  have hnd := nodup_of_verify hv
  have hlt := List.idxOf_lt_length_of_mem hh
  have hget : g.order[g.order.idxOf h]? = some h := by
    rw [List.getElem?_eq_getElem hlt, List.getElem_idxOf hlt]
  constructor
  · intro hl
    rw [← hget]
    congr 1
    omega
  · intro hl
    have heq := (List.getElem?_inj (by omega : g.order.length - 1 < g.order.length) hnd).mp
      (hl.trans hget.symm)
    omega

/-- Order and edges of an accepted graph agree. -/
theorem linked_of_verify (hl : g.Listed) : g.Linked := by
  have hsound : ∀ {h n}, g.get? h = some n →
      ∃ names, NodeSound g names h n (g.order.idxOf h) := fun {h n} hn =>
    nodeSound_of_get? hv (hl h (contains_iff.mpr ⟨n, hn⟩)) hn
  refine ⟨⟨nodup_of_verify hv, ⟨fun hh => ?_, hl _⟩, ?_, ?_⟩, ?_⟩
  · obtain ⟨n, _, hn, _⟩ := nodeSound_of_mem hv hh
    exact contains_iff.mpr ⟨n, hn⟩
  · intro a b m n hm hn
    obtain ⟨_, hsa⟩ := hsound hm
    obtain ⟨_, hsb⟩ := hsound hn
    by_cases hb : b ∈ m.succs
    · obtain ⟨n', hn', hcount⟩ := hsa.succs_sound b hb
      rw [hn] at hn'
      injection hn' with hn'
      rw [hn', hcount]
    · have ha : a ∉ n.preds := by
        intro ha
        obtain ⟨m', _, hm', hcount, _⟩ := hsb.preds_sound a ha
        rw [hm] at hm'
        injection hm' with hm'
        have hpos := List.count_pos_iff.mpr ha
        rw [← hcount, ← hm'] at hpos
        exact hb (List.count_pos_iff.mp hpos)
      rw [List.count_eq_zero_of_not_mem hb, List.count_eq_zero_of_not_mem ha]
  · intro h n p hn hp
    obtain ⟨_, hs⟩ := hsound hn
    obtain ⟨_, i, _, _, hi, hlt⟩ := hs.preds_sound p hp
    obtain ⟨hpo, hidx⟩ := position?_eq_some.mp hi
    rw [before_iff_idxOf (nodup_of_verify hv)]
    exact ⟨hpo, hl h (contains_iff.mpr ⟨n, hn⟩), hidx ▸ hlt⟩
  · intro h n s hn hs
    obtain ⟨_, hso⟩ := hsound hn
    obtain ⟨succ, hsucc, _⟩ := hso.succs_sound s hs
    exact contains_iff.mpr ⟨succ, hsucc⟩

end Accepted

/-! ## Reports about edges -/

end Graph

/-- Whether a fault is a disagreement of order, nodes and edges. -/
def StructuralCause.isDisagreement : StructuralCause → Bool
  | missingNode | danglingPredecessor _ | danglingSuccessor _ | unmatchedFrom _ | unmatchedTo _
  | laterPredecessor _ => true
  | _ => false

namespace Graph

/-- The faults of a graph whose order, nodes and edges agree. -/
def contractCauses : List StructuralCause :=
  [.emptyGraph, .duplicateName, .firstNotSource, .secondInput, .noPredecessors, .innerSink,
    .lastFeeds]

/-- A node whose edges have no fault may break another rule only. -/
theorem mem_contractCauses_of_nodeFault? {g : Graph} {names : List String} {h : Handle} {n : Node}
    {place : Nat} {cause : StructuralCause} (hp : ∀ p ∈ n.preds, g.predFault? h n place p = none)
    (hs : ∀ s ∈ n.succs, g.succFault? h n s = none)
    (hf : g.nodeFault? names h n place = some cause) : cause ∈ contractCauses := by
  rw [← List.findSome?_eq_none_iff] at hp hs
  simp only [nodeFault?, hp, hs, Option.or_none] at hf
  repeat' split at hf
  all_goals first | contradiction | (injection hf with hf; subst hf; simp [contractCauses])

/-- The edges of a linked graph have no fault. -/
theorem Linked.edgeFault_eq_none {g : Graph} (hg : g.Linked) {h : Handle} {n : Node}
    (hn : g.get? h = some n) :
    (∀ p ∈ n.preds, g.predFault? h n (g.order.idxOf h) p = none) ∧
      ∀ s ∈ n.succs, g.succFault? h n s = none := by
  constructor
  · intro p hp
    obtain ⟨m, hm⟩ := contains_iff.mp (hg.pred_live hn hp)
    obtain ⟨hpo, _, hlt⟩ := (before_iff_idxOf hg.nodup).mp (hg.forward hn hp)
    exact predFault?_eq_none.mpr ⟨m, _, hm, hg.mutual_count hm hn,
      position?_eq_some.mpr ⟨hpo, rfl⟩, hlt⟩
  · intro s hs
    obtain ⟨m, hm⟩ := contains_iff.mp (hg.succ_live hn hs)
    exact succFault?_eq_none.mpr ⟨m, hm, (hg.mutual_count hn hm).symm⟩

/-- What verification can find in a linked graph. -/
theorem Linked.exists_of_verify_eq_error {g : Graph} (hg : g.Linked) {d : Diagnostic}
    (hv : g.verify = .error d) : ∃ name, ∃ cause ∈ contractCauses, d = .editing name cause := by
  unfold verify at hv
  split at hv
  · injection hv with hv
    exact ⟨"<graph>", .emptyGraph, by simp [contractCauses], hv.symm⟩
  · obtain ⟨pre, h, post, ho, hcase⟩ := verifyFrom_eq_error hv
    have hh : h ∈ g.order := by rw [ho]; simp
    obtain ⟨n, hn⟩ := hg.exists_get? hh
    rcases hcase with hnone | ⟨n', names, cause, hn', hfault, hd⟩
    · rw [hn] at hnone
      contradiction
    · rw [hn] at hn'
      injection hn' with hn'
      subst hn'
      rw [Nat.zero_add, ← idxOf_of_order_eq hg.nodup ho] at hfault
      obtain ⟨hp, hs⟩ := hg.edgeFault_eq_none hn
      exact ⟨n.name, cause, mem_contractCauses_of_nodeFault? hp hs hfault, hd⟩

/-- Verification never finds a disagreement in a linked graph. -/
theorem Linked.isDisagreement_of_verify {g : Graph} (hg : g.Linked) {name : String}
    {cause : StructuralCause} {stage : Stage}
    (hv : g.verify = .error (.structural name cause stage)) : cause.isDisagreement = false := by
  obtain ⟨_, cause', hmem, hd⟩ := hg.exists_of_verify_eq_error hv
  injection hd with _ hd
  subst hd
  have hall : ∀ cause ∈ contractCauses, cause.isDisagreement = false := by decide
  exact hall cause hmem

end Graph

end NeuralC
