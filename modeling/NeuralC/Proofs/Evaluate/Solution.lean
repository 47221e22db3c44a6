import NeuralC.Evaluate
import NeuralC.Proofs.Graph.Edits

/-!
# NeuralC.Proofs.Evaluate.Solution

Evaluation as a system of equations.  In a graph whose nodes come behind their
operands, a run that succeeds finds outputs that every layer computes from the
outputs of its operands, and there are no others; a run that fails finds such
outputs up to the first layer that fails on them.

So a change to a graph is followed by saying what becomes of one layer, without
running the two graphs side by side: `evaluate_eq_ok` and `evaluate_eq_error`.
-/

namespace NeuralC.Evaluate

open NeuralC.Graph

variable {α : Type} {a : Arithmetic α} {g : Graph} {sample : List α}

/-! ## Equations -/

/-- What the layer of a node gives on the outputs of its operands. -/
def result (a : Arithmetic α) (sample : List α) (v : Outputs α) (n : Node) :
    Except Failure (List α) :=
  layer a sample n.layer (n.preds.map v)

/-- Some layers compute their outputs from those of their operands. -/
def Solves (a : Arithmetic α) (g : Graph) (sample : List α) (v : Outputs α)
    (hs : List Handle) : Prop :=
  ∀ h ∈ hs, ∃ n, g.get? h = some n ∧ result a sample v n = .ok (v h)

/-- The outputs of a node's operands are all that its layer sees. -/
theorem result_congr {v v' : Outputs α} {n : Node} (hv : ∀ p ∈ n.preds, v' p = v p) :
    result a sample v' n = result a sample v n := by
  rw [result, result, List.map_congr_left hv]

/-- In a solution every layer has the value that its operands give it. -/
theorem Solves.result_eq {v : Outputs α} {hs : List Handle} (hs' : Solves a g sample v hs)
    {h : Handle} {n : Node} (hh : h ∈ hs) (hn : g.get? h = some n) :
    result a sample v n = .ok (v h) := by
  obtain ⟨m, hm, hr⟩ := hs' h hh
  rw [hn] at hm
  injection hm with hm
  rw [hm, hr]

/-! ## Runs -/

theorem run_cons_ok {h : Handle} {hs : List Handle} {o : Outputs α} {n : Node} {xs : List α}
    (hn : g.get? h = some n) (hr : result a sample o n = .ok xs) :
    run a g sample (h :: hs) o = run a g sample hs (o.set h xs) := by
  rw [result] at hr
  simp only [run, node_eq_ok.mpr hn, hr]

theorem run_cons_error {h : Handle} {hs : List Handle} {o : Outputs α} {n : Node} {f : Failure}
    (hn : g.get? h = some n) (hr : result a sample o n = .error f) :
    run a g sample (h :: hs) o = .error f := by
  rw [result] at hr
  simp only [run, node_eq_ok.mpr hn, hr]

/-- A run over two parts of the order is a run over one after the other. -/
theorem run_append {xs ys : List Handle} {o : Outputs α} :
    run a g sample (xs ++ ys) o = match run a g sample xs o with
      | .error f => .error f
      | .ok o' => run a g sample ys o' := by
  induction xs generalizing o with
  | nil => rfl
  | cons h xs ih =>
      simp only [List.cons_append, run]
      cases g.node h with
      | error f => rfl
      | ok n =>
          dsimp only
          cases layer a sample n.layer (n.preds.map o) with
          | error f => rfl
          | ok zs => exact ih

theorem Outputs.set_of_ne {o : Outputs α} {h x : Handle} {xs : List α} (hx : x ≠ h) :
    o.set h xs x = o x :=
  if_neg hx

theorem Outputs.set_self {o : Outputs α} {h : Handle} {xs : List α} : o.set h xs h = xs :=
  if_pos rfl

section

variable (hg : g.Sequenced)

include hg

/-- A layer keeps its equation while outputs behind it are added. -/
theorem result_of_set {done rest : List Handle} {h : Handle} {n : Node} {o v : Outputs α}
    {xs : List α} (ho : g.order = done ++ h :: rest) (hn : g.get? h = some n)
    (hr : result a sample o n = .ok xs) (hv : ∀ x ∉ rest, v x = o.set h xs x) :
    result a sample v n = .ok (v h) := by
  have hnd : (done ++ h :: rest).Nodup := ho ▸ hg.nodup
  have hh : h ∉ rest := (List.nodup_cons.mp hnd.of_append_right).1
  have hp : ∀ p ∈ n.preds, v p = o p := by
    intro p hp
    have hdone := hg.mem_of_preds ho hn hp
    have hne : p ∉ h :: rest := List.disjoint_of_nodup_append hnd hdone
    rw [List.mem_cons, not_or] at hne
    rw [hv p hne.2, Outputs.set_of_ne hne.1]
  rw [result_congr hp, hr, hv h hh, Outputs.set_self]

variable (a sample) in
/-- A run of layers behind `done` solves their equations up to the first layer
that fails. -/
theorem run_cases {done hs rest : List Handle} (ho : g.order = done ++ (hs ++ rest))
    (o : Outputs α) :
    (∃ v, run a g sample hs o = .ok v ∧ Solves a g sample v hs ∧ ∀ x ∉ hs, v x = o x) ∨
      ∃ f v xs h ys n, run a g sample hs o = .error f ∧ hs = xs ++ h :: ys ∧
        Solves a g sample v xs ∧ (∀ x ∉ xs, v x = o x) ∧ g.get? h = some n ∧
        result a sample v n = .error f := by
  induction hs generalizing done o with
  | nil => exact .inl ⟨o, rfl, by simp [Solves], fun _ _ => rfl⟩
  | cons h hs ih =>
      obtain ⟨n, hn⟩ := hg.exists_get? (ho ▸ List.mem_append_right _ List.mem_cons_self)
      cases hr : result a sample o n with
      | error f =>
          exact .inr ⟨f, o, [], h, hs, n, run_cons_error hn hr, rfl, by simp [Solves],
            fun _ _ => rfl, hn, hr⟩
      | ok xs =>
          rw [run_cons_ok hn hr]
          -- What the layers behind `h` leave alone, they leave as `h` has left it.
          have hhead : ∀ {zs : List Handle} {v : Outputs α}, zs ⊆ hs →
              (∀ x ∉ zs, v x = o.set h xs x) →
              (∀ x ∉ h :: zs, v x = o x) ∧ result a sample v n = .ok (v h) := by
            intro zs v hzs hv
            refine ⟨fun x hx => ?_, result_of_set hg ho hn hr fun x hx => hv x fun hz => ?_⟩
            · rw [List.mem_cons, not_or] at hx
              rw [hv x hx.2, Outputs.set_of_ne hx.1]
            · exact hx (List.mem_append_left _ (hzs hz))
          have ho' : g.order = (done ++ [h]) ++ (hs ++ rest) := by
            rw [ho, List.append_assoc, List.singleton_append, List.cons_append]
          rcases ih ho' (o.set h xs) with ⟨v, hrun, hsol, hkeep⟩ |
            ⟨f, v, ys, k, zs, m, hrun, hsplit, hsol, hkeep, hm, hfail⟩
          · obtain ⟨hoff, hrh⟩ := hhead (List.Subset.refl hs) hkeep
            refine .inl ⟨v, hrun, fun x hx => ?_, hoff⟩
            rcases List.mem_cons.mp hx with rfl | hx
            · exact ⟨n, hn, hrh⟩
            · exact hsol x hx
          · obtain ⟨hoff, hrh⟩ := hhead (hsplit ▸ List.subset_append_left ys (k :: zs)) hkeep
            refine .inr ⟨f, v, h :: ys, k, zs, m, hrun, by rw [hsplit]; rfl, fun x hx => ?_,
              hoff, hm, hfail⟩
            rcases List.mem_cons.mp hx with rfl | hx
            · exact ⟨n, hn, hrh⟩
            · exact hsol x hx

/-- Outputs that solve the equations are those that a run finds. -/
theorem run_of_solves {done hs rest : List Handle} {o v : Outputs α}
    (ho : g.order = done ++ (hs ++ rest)) (hv : Solves a g sample v hs)
    (hdone : ∀ x ∈ done, o x = v x) :
    ∃ o', run a g sample hs o = .ok o' ∧ ∀ x ∈ done ++ hs, o' x = v x := by
  induction hs generalizing done o with
  | nil => exact ⟨o, rfl, by simpa using hdone⟩
  | cons h hs ih =>
      obtain ⟨n, hn, hr⟩ := hv h List.mem_cons_self
      have hr' : result a sample o n = .ok (v h) := by
        rw [result_congr fun p hp => hdone p (hg.mem_of_preds ho hn hp), hr]
      have ho' : g.order = (done ++ [h]) ++ (hs ++ rest) := by
        rw [ho, List.append_assoc, List.singleton_append, List.cons_append]
      have hdone' : ∀ x ∈ done ++ [h], o.set h (v h) x = v x := by
        intro x hx
        by_cases hxh : x = h
        · rw [hxh, Outputs.set_self]
        · rw [Outputs.set_of_ne hxh]
          refine hdone x ((List.mem_append.mp hx).resolve_right fun hx => ?_)
          exact hxh (List.mem_singleton.mp hx)
      rw [run_cons_ok hn hr']
      obtain ⟨o', hrun, heq⟩ := ih ho' (fun x hx => hv x (List.mem_cons_of_mem h hx)) hdone'
      refine ⟨o', hrun, fun x hx => heq x ?_⟩
      rwa [List.append_assoc, List.singleton_append]

/-! ## Evaluation -/

/-- Evaluation succeeds when the equations have a solution, and gives the output
of the last layer in it. -/
theorem evaluate_eq_ok {ys : List α} :
    evaluate a g sample = .ok ys ↔
      ∃ v h, Solves a g sample v g.order ∧ g.output? = some h ∧ v h = ys := by
  have ho : g.order = [] ++ (g.order ++ []) := by simp
  constructor
  · intro he
    rcases run_cases a sample hg ho fun _ => [] with
      ⟨v, hrun, hsol, _⟩ | ⟨f, _, _, _, _, _, hrun, _⟩
    · simp only [evaluate, hrun] at he
      split at he
      · contradiction
      · next h hh =>
          injection he with he
          exact ⟨v, h, hsol, hh, he⟩
    · simp only [evaluate, hrun] at he
      contradiction
  · rintro ⟨v, h, hsol, hh, rfl⟩
    obtain ⟨o, hrun, heq⟩ := run_of_solves hg (o := fun _ => []) ho hsol (by simp)
    simp only [evaluate, hrun, hh]
    rw [heq h (List.mem_append_right _ (List.mem_of_getLast? hh))]

/-- Evaluation fails when there is no layer, or at the first layer that fails on
the outputs of its operands. -/
theorem evaluate_eq_error {f : Failure} :
    evaluate a g sample = .error f ↔
      (g.order = [] ∧ f = .reported (.editing "" .nothingToEvaluate)) ∨
        ∃ v xs h ys n, g.order = xs ++ h :: ys ∧ Solves a g sample v xs ∧
          g.get? h = some n ∧ result a sample v n = .error f := by
  have ho : g.order = [] ++ (g.order ++ []) := by simp
  constructor
  · intro he
    rcases run_cases a sample hg ho fun _ => [] with
      ⟨v, hrun, _, _⟩ | ⟨f', v, xs, h, ys, n, hrun, hsplit, hsol, _, hn, hfail⟩
    · simp only [evaluate, hrun] at he
      split at he
      · next hout =>
          injection he with he
          exact .inl ⟨List.getLast?_eq_none_iff.mp hout, he.symm⟩
      · contradiction
    · simp only [evaluate, hrun] at he
      injection he with he
      exact .inr ⟨v, xs, h, ys, n, hsplit, hsol, hn, he ▸ hfail⟩
  · rintro (⟨hnil, rfl⟩ | ⟨v, xs, h, ys, n, hsplit, hsol, hn, hfail⟩)
    · simp [evaluate, output?, hnil, run]
    · have hsplit' : g.order = [] ++ (xs ++ h :: ys) := hsplit
      obtain ⟨o, hrun, heq⟩ := run_of_solves hg (o := fun _ => []) hsplit' hsol (by simp)
      have hfail' : result a sample o n = .error f := by
        rw [result_congr fun p hp => heq p (hg.mem_of_preds hsplit hn hp), hfail]
      simp only [evaluate, hsplit, run_append, hrun, run_cons_error hn hfail']

end

/-! ## Leaving a layer out -/

/-- A layer that reads the operand of `h` in place of `h` gives what it gave, if it finds there
what it found. -/
theorem result_bypass {h p : Handle} {n r : Node} {v v' : Outputs α} (hp : n.preds = [p])
    (hread : ∀ x ∈ r.preds, v' (if x = h then p else x) = v x) :
    result a sample v' (Node.bypass h n r) = result a sample v r := by
  have hpreds : (Node.bypass h n r).preds = r.preds.map fun x => if x = h then p else x := by
    rw [Node.bypass, hp, substitute_singleton]
  rw [result, hpreds, List.map_map, result]
  congr 1
  exact List.map_congr_left hread

/-- The graph `g'` does without the layer `h` of `g`: its readers have the output of
`p`, which `g'` computes as `post` says. -/
structure Replaces (a : Arithmetic α) (sample : List α) (g g' : Graph) (h p : Handle)
    (post : Handle → List α → List α) : Prop where
  order_eq : g'.order = g.order.erase h
  /-- The layer that goes gives what `g'` has at `p`. -/
  gone : ∀ {n v}, g.get? h = some n → result a sample v n = .ok (post p (v p))
  /-- The layers that stay give what they gave, up to `post`. -/
  kept : ∀ {k n v}, k ≠ h → g.get? k = some n → (h ∈ n.preds → v h = post p (v p)) →
    ∃ n', g'.get? k = some n' ∧
      result a sample (fun x => post x (v x)) n' = (result a sample v n).map (post k)
  /-- Where the layer was the last, `p` is. -/
  output?_eq : g'.output? = g.output?.map fun o => if o = h then p else o
  /-- The output of the graph is left alone. -/
  post_output : ∀ {o xs}, g.output? = some o → o ≠ h → post o xs = xs

namespace Replaces

variable {g' : Graph} {h p : Handle} {post : Handle → List α → List α}
  (hr : Replaces a sample g g' h p post) (hg : g.Sequenced)

include hr

/-- The layer that goes has the value of what replaces it, as readers find it. -/
theorem output_eq {v : Outputs α} {xs : List Handle} (hv : Solves a g sample v xs)
    (hx : h ∈ xs) : v h = post p (v p) := by
  obtain ⟨n, hn, hres⟩ := hv h hx
  rw [hr.gone hn] at hres
  injection hres with hres
  exact hres.symm

include hg

/-- A solution without the layer comes from one with it. -/
theorem solves {v : Outputs α} {xs ys : List Handle} (ho : g.order = xs ++ ys)
    (hv : Solves a g sample v xs) :
    Solves a g' sample (fun x => post x (v x)) (xs.erase h) := by
  have hnd : (xs ++ ys).Nodup := ho ▸ hg.nodup
  intro k hk
  obtain ⟨hne, hkx⟩ := hnd.of_append_left.mem_erase_iff.mp hk
  obtain ⟨n, hn, hres⟩ := hv k hkx
  have hread : h ∈ n.preds → v h = post p (v p) := by
    intro hp
    obtain ⟨us, vs, rfl⟩ := List.append_of_mem hkx
    rw [List.append_assoc, List.cons_append] at ho
    exact hr.output_eq hv (List.mem_append_left _ (hg.mem_of_preds ho hn hp))
  obtain ⟨n', hn', hres'⟩ := hr.kept hne hn hread
  refine ⟨n', hn', ?_⟩
  rw [hres', hres]
  rfl

/-- The two graphs compute the same, and fail in the same way. -/
theorem evaluate_eq (hg' : g'.Sequenced) : evaluate a g' sample = evaluate a g sample := by
  cases he : evaluate a g sample with
  | ok ys =>
      obtain ⟨v, o, hv, ho, rfl⟩ := (evaluate_eq_ok hg).mp he
      refine (evaluate_eq_ok hg').mpr ⟨fun x => post x (v x), if o = h then p else o, ?_, ?_, ?_⟩
      · rw [hr.order_eq]
        exact hr.solves hg (List.append_nil _).symm hv
      · rw [hr.output?_eq, ho, Option.map_some]
      · by_cases hoh : o = h
        · subst hoh
          rw [if_pos rfl, hr.output_eq hv (List.mem_of_getLast? ho)]
        · rw [if_neg hoh]
          exact hr.post_output ho hoh
  | error f =>
      refine (evaluate_eq_error hg').mpr ?_
      rcases (evaluate_eq_error hg).mp he with ⟨hnil, hf⟩ | ⟨v, xs, k, ys, n, ho, hv, hn, hfail⟩
      · exact .inl ⟨by rw [hr.order_eq, hnil, List.erase_nil], hf⟩
      · have hkh : k ≠ h := by
          rintro rfl
          rw [hr.gone hn] at hfail
          contradiction
        have hread : h ∈ n.preds → v h = post p (v p) := fun hp =>
          hr.output_eq hv (hg.mem_of_preds ho hn hp)
        obtain ⟨n', hn', hres⟩ := hr.kept hkh hn hread
        have hfail' : result a sample (fun x => post x (v x)) n' = .error f := by
          rw [hres, hfail]
          rfl
        -- The layers in front of the one that fails are the same but for `h`.
        have horder : ∃ zs, g'.order = xs.erase h ++ k :: zs := by
          rw [hr.order_eq, ho, List.erase_append]
          split
          · exact ⟨ys, rfl⟩
          · next hx =>
              rw [List.erase_of_not_mem hx, List.erase_cons_tail (by simpa using hkh)]
              exact ⟨ys.erase h, rfl⟩
        obtain ⟨zs, hzs⟩ := horder
        exact .inr ⟨_, _, k, zs, n', hzs, hr.solves hg ho hv, hn', hfail'⟩

end Replaces

end NeuralC.Evaluate
