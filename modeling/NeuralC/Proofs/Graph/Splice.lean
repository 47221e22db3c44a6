import Mathlib.Logic.Function.Iterate
import NeuralC.Graph.Edit

/-!
# NeuralC.Proofs.Graph.Splice

Splicing as substitution.  An edit touches the lists of its neighbours one
occurrence at a time: `splice` replaces the first occurrence of a handle, and a
neighbour is visited once per edge.  `iterate_splice` says that as many splices
as there are occurrences replace all of them in place, and `get?_foldl_modify`
that a walk over handles changes a node once per visit.

Everything here is proved once, so that the proofs about edits never look at
single occurrences again.
-/

namespace NeuralC

/-- The list with every occurrence of `target` replaced by `items`. -/
def substitute (target : Handle) (items xs : List Handle) : List Handle :=
  xs.flatMap fun x => if x = target then items else [x]

@[simp] theorem substitute_nil (target : Handle) (items : List Handle) :
    substitute target items [] = [] := rfl

theorem substitute_cons (target : Handle) (items : List Handle) (x : Handle) (xs : List Handle) :
    substitute target items (x :: xs) =
      (if x = target then items else [x]) ++ substitute target items xs := rfl

/-- Substitution works on the parts of a list by themselves. -/
theorem substitute_append (target : Handle) (items xs ys : List Handle) :
    substitute target items (xs ++ ys) =
      substitute target items xs ++ substitute target items ys := by
  simp [substitute]

/-- A list without the target stays as it is. -/
theorem substitute_of_not_mem {target : Handle} {items xs : List Handle} (h : target ∉ xs) :
    substitute target items xs = xs := by
  induction xs with
  | nil => rfl
  | cons x xs ih =>
      have hx : x ≠ target := fun he => h (he ▸ List.mem_cons_self)
      have hxs : target ∉ xs := fun hm => h (List.mem_cons_of_mem x hm)
      rw [substitute_cons, if_neg hx, ih hxs]
      rfl

/-- What is in a list after substitution was there, or has come for the target. -/
theorem mem_substitute {target : Handle} {items xs : List Handle} {y : Handle} :
    y ∈ substitute target items xs ↔ (y ≠ target ∧ y ∈ xs) ∨ (target ∈ xs ∧ y ∈ items) := by
  induction xs with
  | nil => simp
  | cons x xs ih =>
      rw [substitute_cons, List.mem_append, ih]
      by_cases hx : x = target
      · subst hx
        rw [if_pos rfl]
        grind
      · rw [if_neg hx]
        grind

/-- Every other handle occurs as often as before, and once more for each time
the items stand in place of the target. -/
theorem count_substitute {target x : Handle} (hx : x ≠ target) (items xs : List Handle) :
    (substitute target items xs).count x = xs.count x + xs.count target * items.count x := by
  induction xs with
  | nil => simp
  | cons y ys ih =>
      rw [substitute_cons, List.count_append, ih]
      by_cases hy : y = target
      · subst hy
        rw [if_pos rfl, List.count_cons_self, List.count_cons_of_ne hx.symm, Nat.add_mul,
          Nat.one_mul]
        omega
      · rw [if_neg hy, List.count_cons_of_ne hy, List.count_singleton, List.count_cons]
        omega

/-- Substituting one handle for another renames it. -/
theorem substitute_singleton (old h : Handle) (xs : List Handle) :
    substitute old [h] xs = xs.map fun x => if x = old then h else x := by
  induction xs with
  | nil => rfl
  | cons x xs ih =>
      rw [substitute_cons, ih, List.map_cons]
      split <;> rfl

/-- Counting a handle in a renamed list is counting its old self. -/
theorem count_substitute_singleton {old h j : Handle} {xs : List Handle} (hne : old ≠ h)
    (hxs : h ∉ xs) (hj : j ≠ h) :
    (substitute old [h] xs).count (if j = old then h else j) = xs.count j := by
  by_cases hjo : j = old
  · rw [if_pos hjo, count_substitute hne.symm, List.count_eq_zero_of_not_mem hxs,
      List.count_singleton_self, Nat.zero_add, Nat.mul_one, hjo]
  · rw [if_neg hjo, count_substitute hjo, List.count_singleton, beq_false_of_ne (Ne.symm hj)]
    simp

/-! ## Splices -/

/-- A splice uses up one occurrence. -/
theorem count_splice {target : Handle} {items xs : List Handle} (hi : target ∉ items)
    (h : target ∈ xs) : (splice target items xs).count target + 1 = xs.count target := by
  induction xs with
  | nil => simp at h
  | cons x xs ih =>
      by_cases hx : x = target
      · subst hx
        rw [splice, if_pos rfl, List.count_append, List.count_eq_zero_of_not_mem hi,
          List.count_cons_self]
        omega
      · have hxs : target ∈ xs := (List.mem_cons.mp h).resolve_left fun he => hx he.symm
        rw [splice, if_neg hx, List.count_cons_of_ne hx, List.count_cons_of_ne hx, ih hxs]

/-- What a splice has done, a substitution does not do again. -/
theorem substitute_splice {target : Handle} {items : List Handle} (hi : target ∉ items)
    (xs : List Handle) :
    substitute target items (splice target items xs) = substitute target items xs := by
  induction xs with
  | nil => rfl
  | cons x xs ih =>
      by_cases hx : x = target
      · subst hx
        rw [splice, if_pos rfl, substitute_append, substitute_of_not_mem hi, substitute_cons,
          if_pos rfl]
      · rw [splice, if_neg hx, substitute_cons, substitute_cons, ih]

/-- As many splices as there are occurrences replace them all. -/
theorem iterate_splice {target : Handle} {items : List Handle} (hi : target ∉ items)
    (xs : List Handle) :
    (splice target items)^[xs.count target] xs = substitute target items xs := by
  generalize hk : xs.count target = k
  induction k generalizing xs with
  | zero =>
      have h : target ∉ xs := List.count_eq_zero.mp hk
      rw [Function.iterate_zero, id, substitute_of_not_mem h]
  | succ k ih =>
      have h : target ∈ xs := List.count_pos_iff.mp (by omega)
      have hk' : (splice target items xs).count target = k := by
        have hc := count_splice hi h
        omega
      rw [Function.iterate_succ_apply, ih _ hk', substitute_splice hi]

/-! ## Walks over handles -/

namespace Node

/-- Adding to the successors over and over adds all at once. -/
theorem iterate_addSucc (h : Handle) (k : Nat) (n : Node) :
    (fun n : Node => { n with succs := n.succs ++ [h] })^[k] n =
      { n with succs := n.succs ++ List.replicate k h } := by
  induction k generalizing n with
  | zero => simp
  | succ k ih => rw [Function.iterate_succ_apply, ih]; simp [List.replicate_succ]

/-- Adding to the predecessors over and over adds all at once. -/
theorem iterate_addPred (h : Handle) (k : Nat) (n : Node) :
    (fun n : Node => { n with preds := n.preds ++ [h] })^[k] n =
      { n with preds := n.preds ++ List.replicate k h } := by
  induction k generalizing n with
  | zero => simp
  | succ k ih => rw [Function.iterate_succ_apply, ih]; simp [List.replicate_succ]

theorem iterate_onSuccs (f : List Handle → List Handle) (k : Nat) (n : Node) :
    (fun n : Node => { n with succs := f n.succs })^[k] n = { n with succs := f^[k] n.succs } := by
  induction k generalizing n with
  | zero => rfl
  | succ k ih => rw [Function.iterate_succ_apply, ih, Function.iterate_succ_apply]

theorem iterate_onPreds (f : List Handle → List Handle) (k : Nat) (n : Node) :
    (fun n : Node => { n with preds := f n.preds })^[k] n = { n with preds := f^[k] n.preds } := by
  induction k generalizing n with
  | zero => rfl
  | succ k ih => rw [Function.iterate_succ_apply, ih, Function.iterate_succ_apply]

end Node

namespace Graph

/-- A walk changes a node once per visit. -/
theorem get?_foldl_modify (f : Node → Node) (hs : List Handle) (g : Graph) (k : Handle) :
    (hs.foldl (fun g h => g.modify h f) g).get? k = (g.get? k).map f^[hs.count k] := by
  induction hs generalizing g with
  | nil => simp
  | cons h hs ih =>
      rw [List.foldl_cons, ih, get?_modify]
      by_cases hk : h = k
      · subst hk
        rw [if_pos rfl, List.count_cons_self, Option.map_map, ← Function.iterate_succ]
      · rw [if_neg hk, List.count_cons_of_ne hk]

/-- Changes in place keep the order. -/
theorem order_foldl_modify (f : Node → Node) (hs : List Handle) (g : Graph) :
    (hs.foldl (fun g h => g.modify h f) g).order = g.order := by
  induction hs generalizing g with
  | nil => rfl
  | cons h hs ih => rw [List.foldl_cons, ih, order_modify]

theorem fresh_foldl_modify (f : Node → Node) (hs : List Handle) (g : Graph) :
    (hs.foldl (fun g h => g.modify h f) g).fresh = g.fresh := by
  induction hs generalizing g with
  | nil => rfl
  | cons h hs ih =>
      rw [List.foldl_cons, ih]
      simp [fresh, modify]

end Graph

end NeuralC
