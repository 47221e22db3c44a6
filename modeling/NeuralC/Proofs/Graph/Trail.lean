import NeuralC.Proofs.Graph.Contract

/-!
# NeuralC.Proofs.Graph.Trail

Walks that have one way to go from each node.  A `Trail` is the list of the nodes
that such a walk meets, up to the one where it stops, so that there is a trail
from a node just when the walk from it comes to an end.

Edges run forward in the order of a graph, so walks along first readers and along
first operands do; a walk along first operands ends at the input
(`Framed.getLast?_trail`).
-/

namespace NeuralC

/-- The nodes met from `h` on, where every step goes from a node to the `next` one. -/
inductive Trail (next : Handle → Option Handle) : Handle → List Handle → Prop where
  | stop {h : Handle} : next h = none → Trail next h [h]
  | step {h k : Handle} {ks : List Handle} : next h = some k → Trail next k ks →
    Trail next h (h :: ks)

namespace Trail

variable {next : Handle → Option Handle} {h : Handle} {hs hs' : List Handle}

theorem exists_eq_cons (ht : Trail next h hs) : ∃ ks, hs = h :: ks := by
  cases ht with
  | stop _ => exact ⟨[], rfl⟩
  | step _ _ => exact ⟨_, rfl⟩

/-- There is one walk from a node at most. -/
theorem unique (ht : Trail next h hs) (ht' : Trail next h hs') : hs = hs' := by
  induction ht generalizing hs' with
  | stop hnone =>
      cases ht' with
      | stop _ => rfl
      | step hsome _ =>
          rw [hnone] at hsome
          contradiction
  | step hsome _ ih =>
      cases ht' with
      | stop hnone =>
          rw [hnone] at hsome
          contradiction
      | step hsome' hrest =>
          rw [hsome] at hsome'
          injection hsome' with hk
          subst hk
          rw [ih hrest]

end Trail

/-- A walk whose steps bring a rank down comes to an end. -/
theorem exists_trail {next : Handle → Option Handle} (rank : Handle → Nat)
    (hrank : ∀ h k, next h = some k → rank k < rank h) (h : Handle) : ∃ hs, Trail next h hs := by
  induction hr : rank h using Nat.strongRecOn generalizing h with
  | ind r ih =>
      cases hk : next h with
      | none => exact ⟨[h], .stop hk⟩
      | some k =>
          obtain ⟨ks, hks⟩ := ih (rank k) (hr ▸ hrank h k hk) k rfl
          exact ⟨h :: ks, .step hk hks⟩

namespace Graph

/-! ## Edges to follow -/

def firstOperand? (g : Graph) (h : Handle) : Option Handle :=
  (g.get? h).bind fun n => n.preds.head?

def firstReader? (g : Graph) (h : Handle) : Option Handle :=
  (g.get? h).bind fun n => n.succs.head?

theorem firstOperand?_of_get? {g : Graph} {h : Handle} {n : Node} (hn : g.get? h = some n) :
    g.firstOperand? h = n.preds.head? := by
  rw [firstOperand?, hn, Option.bind_some]

theorem firstReader?_of_get? {g : Graph} {h : Handle} {n : Node} (hn : g.get? h = some n) :
    g.firstReader? h = n.succs.head? := by
  rw [firstReader?, hn, Option.bind_some]

/-- A first operand belongs to a node of the graph. -/
theorem firstOperand?_eq_some {g : Graph} {h p : Handle} :
    g.firstOperand? h = some p ↔ ∃ n, g.get? h = some n ∧ n.preds.head? = some p :=
  Option.bind_eq_some_iff

/-- A first reader belongs to a node of the graph. -/
theorem firstReader?_eq_some {g : Graph} {h s : Handle} :
    g.firstReader? h = some s ↔ ∃ n, g.get? h = some n ∧ n.succs.head? = some s :=
  Option.bind_eq_some_iff

namespace Linked

variable {g : Graph} (hg : g.Linked)

include hg

/-- Going to the first operand goes back in the order. -/
theorem before_of_firstOperand? {h p : Handle} (hp : g.firstOperand? h = some p) :
    g.Before p h := by
  obtain ⟨n, hn, hhead⟩ := firstOperand?_eq_some.mp hp
  exact hg.forward hn (List.mem_of_head? hhead)

/-- Going to the first reader goes forward in the order. -/
theorem before_of_firstReader? {h s : Handle} (hs : g.firstReader? h = some s) :
    g.Before h s := by
  obtain ⟨n, hn, hhead⟩ := firstReader?_eq_some.mp hs
  exact hg.forward_succ hn (List.mem_of_head? hhead)

/-- Going from reader to operand comes to an end. -/
theorem exists_trail_firstOperand? (h : Handle) : ∃ hs, Trail g.firstOperand? h hs := by
  refine exists_trail g.order.idxOf (fun h p hp => ?_) h
  exact ((before_iff_idxOf hg.nodup).mp (hg.before_of_firstOperand? hp)).2.2

/-- Going from operand to reader comes to an end. -/
theorem exists_trail_firstReader? (h : Handle) : ∃ hs, Trail g.firstReader? h hs := by
  refine exists_trail (fun k => g.order.length - g.order.idxOf k) (fun h s hs => ?_) h
  obtain ⟨_, hmem, hlt⟩ := (before_iff_idxOf hg.nodup).mp (hg.before_of_firstReader? hs)
  have hend := List.idxOf_lt_length_of_mem hmem
  omega

/-- A trail of readers stays in the graph. -/
theorem mem_of_mem_trail {h k : Handle} {hs : List Handle} (ht : Trail g.firstReader? h hs)
    (hh : h ∈ g.order) (hk : k ∈ hs) : k ∈ g.order := by
  induction ht with
  | stop _ => rwa [List.mem_singleton.mp hk]
  | step hnext _ ih =>
      rcases List.mem_cons.mp hk with rfl | hk
      · exact hh
      · exact ih ((before_iff_idxOf hg.nodup).mp (hg.before_of_firstReader? hnext)).2.1 hk

/-- No walk to readers is longer than what the order holds from its first node on. -/
theorem length_trail_firstReader? {h : Handle} {hs : List Handle} (ht : Trail g.firstReader? h hs)
    (hh : h ∈ g.order) : hs.length + g.order.idxOf h ≤ g.order.length := by
  induction ht with
  | @stop h _ =>
      have hend := List.idxOf_lt_length_of_mem hh
      rw [List.length_singleton]
      omega
  | @step h s hs hnext _ ih =>
      obtain ⟨_, hmem, hlt⟩ := (before_iff_idxOf hg.nodup).mp (hg.before_of_firstReader? hnext)
      have hrest := ih hmem
      rw [List.length_cons]
      omega

end Linked

/-- In a framed graph, first operands lead to the input. -/
theorem Framed.getLast?_trail {g : Graph} (hg : g.Framed) {h : Handle} {hs : List Handle}
    (ht : Trail g.firstOperand? h hs) (hh : h ∈ g.order) : hs.getLast? = g.input? := by
  induction ht with
  | @stop h hnone =>
      obtain ⟨n, hn⟩ := hg.exists_get? hh
      rw [firstOperand?_of_get? hn, List.head?_eq_none_iff] at hnone
      have hfirst : g.input? = some h := by
        by_contra hne
        exact (hg.inner hne hn).2 hnone
      rw [hfirst, List.getLast?_singleton]
  | @step h p hs hnext hrest ih =>
      obtain ⟨ks, rfl⟩ := hrest.exists_eq_cons
      rw [List.getLast?_cons_cons]
      exact ih (hg.toLinked.before_of_firstOperand? hnext).left_mem

end Graph

end NeuralC
