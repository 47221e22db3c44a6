import Mathlib.Data.List.Induction
import NeuralC.Proofs.Evaluate.Padding
import NeuralC.Proofs.Evaluate.Solution
import NeuralC.Proofs.Graph.Verify
import NeuralC.Proofs.Simplify.Remove

/-!
# NeuralC.Proofs.Simplify.Padding

What folding padding layers into convolutions does to a graph and to what it
computes.  `Folded` describes the graph when some padding layers are gone: edges
lead around them, and a reader of padding has the shapes and the padding of the
last of them that it reads.  The pass gets there one layer at a time
(`folded_of_fusePadding`).
-/

namespace NeuralC

def Node.padded (padding : List (Nat × Nat)) (shapes : List Shape) (n : Node) : Node :=
  { n with layer := Simplify.padded padding shapes n.layer }

namespace Simplify

open NeuralC.Graph

/-! ## Taking over padding -/

/-- A convolution has the padding that was set, and other kinds have none. -/
theorem padding?_setPadding (padding : List (Nat × Nat)) (kind : LayerKind) :
    (kind.setPadding padding).padding? = kind.padding?.map fun p => (p.1, padding) := by
  cases kind <;> rfl

/-- The padding that is set last counts. -/
theorem setPadding_setPadding (padding padding' : List (Nat × Nat)) (kind : LayerKind) :
    (kind.setPadding padding').setPadding padding = kind.setPadding padding := by
  cases kind <;> rfl

/-- Only the padding taken over last counts. -/
theorem padded_padded (padding padding' : List (Nat × Nat)) (shapes shapes' : List Shape)
    (l : Layer) : padded padding shapes (padded padding' shapes' l) = padded padding shapes l := by
  simp [padded, setPadding_setPadding]

/-- Taking over padding keeps what a layer can take over. -/
theorem absorbs_padded (rank : Nat) (padding : List (Nat × Nat)) (shapes : List Shape) (l : Layer) :
    (padded padding shapes l).kind.padding?.any (·.1 == rank) =
      l.kind.padding?.any (·.1 == rank) := by
  rw [padded, padding?_setPadding]
  cases l.kind.padding? <;> rfl

/-- What a reader that takes over padding has been checked for. -/
theorem absorbPadding_cases {rank : Nat} {padding : List (Nat × Nat)} {shapes : List Shape}
    {h : Handle} {w w' : Workspace} (ha : absorbPadding rank padding shapes h w = .ok () w') :
    ∃ n, w.graph.get? h = some n ∧ n.layer.kind.padding?.any (·.1 == rank) = true ∧
      w'.graph = w.graph.modifyLayer h (padded padding shapes) := by
  obtain ⟨g, v, hg, ha⟩ := Work.bind_eq_ok.mp ha
  injection hg with hg hv
  subst hg hv
  obtain ⟨n, v, hn, ha⟩ := Work.bind_eq_ok.mp ha
  obtain ⟨hn, rfl⟩ := Work.attempt_eq_ok.mp hn
  split at ha
  · next hany =>
      obtain ⟨_, v, hset, ha⟩ := Work.bind_eq_ok.mp ha
      injection hset with _ hset
      injection ha with _ ha
      subst hset ha
      exact ⟨n, node_eq_ok.mp hn, hany, rfl⟩
  · contradiction

/-- What readers that take over padding become. -/
theorem absorbAll_cases {rank : Nat} {padding : List (Nat × Nat)} {shapes : List Shape}
    {hs : List Handle} {w w' : Workspace} (ha : absorbAll rank padding shapes hs w = .ok () w') :
    (∀ h ∈ hs, ∃ n, w.graph.get? h = some n ∧
        n.layer.kind.padding?.any (·.1 == rank) = true) ∧
      w'.graph.order = w.graph.order ∧
      ∀ k, w'.graph.get? k =
        if k ∈ hs then (w.graph.get? k).map (Node.padded padding shapes)
        else w.graph.get? k := by
  induction hs generalizing w with
  | nil =>
      injection ha with _ ha
      subst ha
      simp
  | cons h hs ih =>
      obtain ⟨_, v, hone, ha⟩ := Work.bind_eq_ok.mp ha
      obtain ⟨n, hn, hany, hv⟩ := absorbPadding_cases hone
      obtain ⟨hreaders, horder, hget⟩ := ih ha
      have hvk : ∀ k, v.graph.get? k =
          if h = k then (w.graph.get? k).map (Node.padded padding shapes)
          else w.graph.get? k := by
        intro k
        rw [hv, modifyLayer, get?_modify]
        rfl
      refine ⟨?_, ?_, ?_⟩
      · intro k hk
        rcases List.mem_cons.mp hk with rfl | hk
        · exact ⟨n, hn, hany⟩
        · obtain ⟨m, hm, hm'⟩ := hreaders k hk
          rw [hvk] at hm
          split at hm
          · obtain ⟨m₀, hm₀, rfl⟩ := Option.map_eq_some_iff.mp hm
            exact ⟨m₀, hm₀, by rw [← hm', Node.padded, absorbs_padded]⟩
          · exact ⟨m, hm, hm'⟩
      · rw [horder, hv, modifyLayer, order_modify]
      · intro k
        rw [hget k, hvk k]
        by_cases hk : h = k
        · subst hk
          rw [if_pos rfl, if_pos List.mem_cons_self, hn]
          split
          · simp [Node.padded, padded_padded]
          · rfl
        · rw [if_neg hk]
          simp [Ne.symm hk]

/-- Taking over padding does not change the edges. -/
theorem linked_of_absorbAll {rank : Nat} {padding : List (Nat × Nat)} {shapes : List Shape}
    {hs : List Handle} {w w' : Workspace} (hg : w.graph.Linked)
    (ha : absorbAll rank padding shapes hs w = .ok () w') : w'.graph.Linked := by
  obtain ⟨_, horder, hget⟩ := absorbAll_cases ha
  refine hg.of_edges horder fun k => ?_
  rw [hget k]
  split
  · exact ⟨Node.padded padding shapes, fun m => ⟨rfl, rfl⟩, rfl⟩
  · exact ⟨id, fun m => ⟨rfl, rfl⟩, by rw [Option.map_id, id]⟩

/-! ## One padding layer -/

/-- What folding one padding layer has checked and changed. -/
theorem fusePaddingAt_cases {w w' : Workspace} {h : Handle} (hg : w.graph.Linked)
    (hf : fusePaddingAt h w = .ok () w') :
    ∃ n rank padding, w.graph.get? h = some n ∧
      n.layer.kind.zeroPadding? = some (rank, padding) ∧
      (∀ s ∈ n.succs, ∃ m, w.graph.get? s = some m ∧
        m.layer.kind.padding?.any (·.1 == rank) = true) ∧
      w'.graph.Linked ∧ w'.graph.order = w.graph.order.erase h ∧
      ∀ k, w'.graph.get? k = if k = h then none else (w.graph.get? k).map fun m =>
        Node.bypass h n (if k ∈ n.succs then m.padded padding n.layer.inputShapes else m) := by
  obtain ⟨n, v, hnode, hrest⟩ := Work.bind_eq_ok.mp hf
  obtain ⟨hn, rfl⟩ := Work.node_eq_ok.mp hnode
  cases hpad : n.layer.kind.zeroPadding? with
  | none =>
      simp only [hpad] at hrest
      contradiction
  | some found =>
      obtain ⟨rank, padding⟩ := found
      simp only [hpad] at hrest
      obtain ⟨_, v₁, habsorb, hrest⟩ := Work.bind_eq_ok.mp hrest
      obtain ⟨_, v₂, hdelete, hcount⟩ := Work.bind_eq_ok.mp hrest
      injection hcount with _ hcount
      obtain ⟨g', hg', rfl⟩ := Work.graph_of_delete hdelete
      subst hcount
      obtain ⟨hreaders, horder, hget⟩ := absorbAll_cases habsorb
      have hlinked := linked_of_absorbAll hg habsorb
      -- The layer itself does not read its own output, so it stays as it was.
      have hn₁ : v₁.graph.get? h = some n := by
        rw [hget h, if_neg (hg.not_mem_succs hn), hn]
      refine ⟨n, rank, padding, hn, hpad, hreaders, hlinked.delete hg', ?_, fun k => ?_⟩
      · rw [order_delete hg', horder]
      · rw [hlinked.get?_delete hg' hn₁, hget k]
        split
        · rfl
        · split
          · rw [Option.map_map]
            rfl
          · rfl

/-! ## Several padding layers -/

/-- The padding that a padding layer of the graph adds, and the shapes it reads. -/
def paddingOf (g : Graph) (t : Handle) : Option (List (Nat × Nat) × List Shape) :=
  (g.get? t).bind fun n => n.layer.kind.zeroPadding?.map fun p => (p.2, n.layer.inputShapes)

/-- The layer of a reader when it has taken over padding from `t`. -/
def absorb (g : Graph) (n : Node) (l : Layer) (t : Handle) : Layer :=
  match paddingOf g t with
  | some (padding, shapes) => if t ∈ n.preds then padded padding shapes l else l
  | none => l

/-- The layer of a node when it has taken over the padding of some layers, one after
another. -/
def absorbed (g : Graph) (ts : List Handle) (n : Node) : Layer := ts.foldl (absorb g n) n.layer

/-- The neighbours on one side, where edges lead around some layers. -/
def around (g : Graph) (ts : List Handle) (side : Node → List Handle) (xs : List Handle) :
    List Handle :=
  xs.flatMap fun x => if x ∈ ts then ((g.get? x).map side).getD [] else [x]

/-- A node when some padding layers are folded. -/
def foldedNode (g : Graph) (ts : List Handle) (n : Node) : Node :=
  { n with
    layer := absorbed g ts n
    preds := around g ts Node.preds n.preds
    succs := around g ts Node.succs n.succs }

/-- The graph `g'` is `g` with some padding layers folded, all of whose readers are
convolutions. -/
structure Folded (g g' : Graph) (ts : List Handle) : Prop where
  order_eq : g'.order = g.order.filter (· ∉ ts)
  get?_eq : ∀ k, g'.get? k = if k ∈ ts then none else (g.get? k).map (foldedNode g ts)
  /-- Padding layers are read by convolutions only. -/
  readers : ∀ {t n s m}, t ∈ ts → g.get? t = some n → s ∈ n.succs → g.get? s = some m →
    m.layer.kind.padding?.isSome = true

/-- A layer that reads none of the padding layers stays as it is. -/
theorem absorbed_of_forall_not_mem {g : Graph} {ts : List Handle} {n : Node}
    (hts : ∀ t ∈ ts, t ∉ n.preds) : absorbed g ts n = n.layer := by
  rw [absorbed]
  induction ts with
  | nil => rfl
  | cons t ts ih =>
      have ht : absorb g n n.layer t = n.layer := by
        rw [absorb]
        split
        · exact if_neg (hts t List.mem_cons_self)
        · rfl
      rw [List.foldl_cons, ht, ih fun t ht => hts t (List.mem_cons_of_mem _ ht)]

/-- Where nothing is left out, edges stay as they are. -/
theorem around_of_forall_not_mem {g : Graph} {ts xs : List Handle} {side : Node → List Handle}
    (hts : ∀ x ∈ xs, x ∉ ts) : around g ts side xs = xs := by
  rw [around]
  induction xs with
  | nil => rfl
  | cons x xs ih =>
      rw [List.flatMap_cons, if_neg (hts x List.mem_cons_self),
        ih fun x hx => hts x (List.mem_cons_of_mem _ hx)]
      rfl

/-- Leading edges around one more layer is substituting its neighbours for it, where the
layers before it have no edge to it. -/
theorem substitute_around {g : Graph} {ts xs : List Handle} {t : Handle} {n : Node}
    {side : Node → List Handle} (hn : g.get? t = some n) (ht : t ∉ ts)
    (hside : ∀ x ∈ ts, x ∈ xs → ∀ m, g.get? x = some m → t ∉ side m) :
    substitute t (side n) (around g ts side xs) = around g (ts ++ [t]) side xs := by
  simp only [around]
  induction xs with
  | nil => rfl
  | cons x xs ih =>
      rw [List.flatMap_cons, List.flatMap_cons, substitute_append,
        ih fun x hx hxs => hside x hx (List.mem_cons_of_mem _ hxs)]
      congr 1
      by_cases hx : x ∈ ts
      · rw [if_pos hx, if_pos (List.mem_append_left _ hx)]
        refine substitute_of_not_mem ?_
        cases hm : g.get? x with
        | none => simp
        | some m => exact hside x hx List.mem_cons_self m hm
      · by_cases hxt : x = t
        · subst hxt
          rw [if_neg hx, if_pos (by simp), hn, substitute_cons, if_pos rfl]
          simp
        · rw [if_neg hx, if_neg (by simp [hx, hxt]), substitute_cons, if_neg hxt]
          simp

theorem folded_nil (g : Graph) : Folded g g [] := by
  refine ⟨?_, fun k => ?_, ?_⟩
  · simp
  · have hid : foldedNode g [] = id := by
      funext n
      rw [foldedNode, absorbed_of_forall_not_mem (by simp), around_of_forall_not_mem (by simp),
        around_of_forall_not_mem (by simp)]
      rfl
    rw [hid, if_neg List.not_mem_nil, Option.map_id, id]
  · intro t n s m ht
    contradiction

/-- A layer takes over one padding after another. -/
theorem absorbed_append_singleton (g : Graph) (ts : List Handle) (t : Handle) (n : Node) :
    absorbed g (ts ++ [t]) n = absorb g n (absorbed g ts n) t := by
  rw [absorbed, List.foldl_append, List.foldl_cons, List.foldl_nil, absorbed]

/-- A reader ends up with the padding of one of the layers it reads. -/
theorem absorbed_cases (g : Graph) (ts : List Handle) (n : Node) :
    (absorbed g ts n = n.layer ∧ ∀ t ∈ ts, t ∈ n.preds → paddingOf g t = none) ∨
      ∃ t padding shapes, t ∈ ts ∧ t ∈ n.preds ∧ paddingOf g t = some (padding, shapes) ∧
        absorbed g ts n = padded padding shapes n.layer := by
  induction ts using List.reverseRecOn with
  | nil => exact .inl ⟨rfl, by simp⟩
  | append_singleton ts t ih =>
      rw [absorbed_append_singleton, absorb]
      cases hp : paddingOf g t with
      | none =>
          dsimp only
          rcases ih with ⟨hl, hnone⟩ | ⟨t', padding, shapes, ht', hrest⟩
          · refine .inl ⟨hl, fun t' ht' hpreds => ?_⟩
            rcases List.mem_append.mp ht' with ht' | ht'
            · exact hnone t' ht' hpreds
            · rw [List.mem_singleton.mp ht', hp]
          · exact .inr ⟨t', padding, shapes, List.mem_append_left _ ht', hrest⟩
      | some found =>
          obtain ⟨padding, shapes⟩ := found
          dsimp only
          by_cases ht : t ∈ n.preds
          · refine .inr ⟨t, padding, shapes, by simp, ht, hp, ?_⟩
            rw [if_pos ht]
            rcases ih with ⟨hl, _⟩ | ⟨_, _, _, _, _, _, hl⟩
            · rw [hl]
            · rw [hl, padded_padded]
          · rw [if_neg ht]
            rcases ih with ⟨hl, hnone⟩ | ⟨t', padding', shapes', ht', hrest⟩
            · refine .inl ⟨hl, fun t' ht' hpreds => ?_⟩
              rcases List.mem_append.mp ht' with ht' | ht'
              · exact hnone t' ht' hpreds
              · exact absurd (List.mem_singleton.mp ht' ▸ hpreds) ht
            · exact .inr ⟨t', padding', shapes', List.mem_append_left _ ht', hrest⟩

/-- A padding layer is no convolution. -/
theorem padding?_of_isPadding {kind : LayerKind} (hk : isPadding kind = true) :
    kind.padding? = none := by
  cases kind with
  | zeroPadding1D _ => rfl
  | zeroPadding2D _ => rfl
  | _ => contradiction

section Step

variable {g g₁ : Graph} {ts rest : List Handle} {t : Handle} {n : Node}
  (hg : g.Linked) (hts : g.handlesWhere isPadding = ts ++ t :: rest) (hf : Folded g g₁ ts)
  (hn : g.get? t = some n)

include hts

theorem handlesWhere_sublist : (ts ++ t :: rest).Sublist g.order :=
  hts ▸ List.filter_sublist

theorem isPadding_of_split (hn : g.get? t = some n) : isPadding n.layer.kind = true := by
  have hmem : t ∈ g.handlesWhere isPadding := by simp [hts]
  exact kind_of_mem_handlesWhere hmem hn

include hg

theorem not_mem_of_split : t ∉ ts := by
  have hnd := hg.nodup.sublist (handlesWhere_sublist hts)
  exact fun ht => List.disjoint_of_nodup_append hnd ht List.mem_cons_self

include hn

/-- The readers of a padding layer come behind it, so none of them is folded yet. -/
theorem succ_not_mem {s : Handle} (hs : s ∈ n.succs) : s ∉ ts := by
  intro hst
  have hback : g.Before s t := by
    refine List.Sublist.trans ?_ (handlesWhere_sublist hts)
    exact (List.singleton_sublist.mpr hst).append (List.singleton_sublist.mpr List.mem_cons_self)
  exact before_irrefl hg.nodup s (before_trans hg.nodup hback (hg.forward_succ hn hs))

include hf

/-- A padding layer reads none that was folded, for those are read by convolutions. -/
theorem pred_not_mem {p : Handle} (hp : p ∈ n.preds) : p ∉ ts := by
  intro hpt
  obtain ⟨m, hm⟩ := contains_iff.mp (hg.pred_live hn hp)
  have hconv := hf.readers hpt hm ((hg.mem_succs_iff hm hn).mpr hp) hn
  rw [padding?_of_isPadding (isPadding_of_split hts hn)] at hconv
  contradiction

/-- So the layer is still what it was. -/
theorem get?_of_split : g₁.get? t = some n := by
  rw [hf.get?_eq, if_neg (not_mem_of_split hg hts), hn, Option.map_some, foldedNode,
    absorbed_of_forall_not_mem fun t' ht' hp => pred_not_mem hg hts hf hn hp ht',
    around_of_forall_not_mem fun p hp => pred_not_mem hg hts hf hn hp,
    around_of_forall_not_mem fun s hs => succ_not_mem hg hts hn hs]

/-- Taking the padding over and leading edges around the layer gives the nodes with one
more layer folded. -/
theorem bypass_foldedNode {rank : Nat} {padding : List (Nat × Nat)} {k : Handle} {m : Node}
    (hpad : n.layer.kind.zeroPadding? = some (rank, padding)) (hm : g.get? k = some m) :
    Node.bypass t n (if k ∈ n.succs then (foldedNode g ts m).padded padding n.layer.inputShapes
      else foldedNode g ts m) = foldedNode g (ts ++ [t]) m := by
  have hlayer : absorbed g (ts ++ [t]) m =
      if k ∈ n.succs then padded padding n.layer.inputShapes (absorbed g ts m)
      else absorbed g ts m := by
    have hof : paddingOf g t = some (padding, n.layer.inputShapes) := by
      rw [paddingOf, hn, Option.bind_some, hpad, Option.map_some]
    rw [absorbed_append_singleton, absorb, hof]
    simp only [hg.mem_succs_iff hn hm]
  have hpreds : substitute t n.preds (around g ts Node.preds m.preds) =
      around g (ts ++ [t]) Node.preds m.preds := by
    refine substitute_around hn (not_mem_of_split hg hts) fun x hx _ r hr ht => ?_
    exact succ_not_mem hg hts hn ((hg.mem_succs_iff hn hr).mpr ht) hx
  have hsuccs : substitute t n.succs (around g ts Node.succs m.succs) =
      around g (ts ++ [t]) Node.succs m.succs := by
    refine substitute_around hn (not_mem_of_split hg hts) fun x hx _ r hr ht => ?_
    exact pred_not_mem hg hts hf hn ((hg.mem_succs_iff hr hn).mp ht) hx
  rw [foldedNode, foldedNode, hlayer, ← hpreds, ← hsuccs]
  split <;> rfl

omit hn in
/-- Folding the next padding layer. -/
theorem Folded.step {w w' : Workspace} (hw : w.graph = g₁) (hg₁ : g₁.Linked)
    (hat : fusePaddingAt t w = .ok () w') :
    Folded g w'.graph (ts ++ [t]) ∧ w'.graph.Linked := by
  subst hw
  obtain ⟨n, rank, padding, hn₁, hpad, hreaders, hlinked, horder, hget⟩ :=
    fusePaddingAt_cases hg₁ hat
  have hmem : t ∈ g.handlesWhere isPadding := by simp [hts]
  obtain ⟨_, n₀, hn, hp⟩ := mem_handlesWhere.mp hmem
  rw [get?_of_split hg hts hf hn] at hn₁
  injection hn₁ with hn₁
  subst hn₁
  refine ⟨⟨?_, fun k => ?_, ?_⟩, hlinked⟩
  · rw [horder, hf.order_eq, (hg.nodup.filter _).erase_eq_filter, List.filter_filter]
    refine List.filter_congr fun x _ => ?_
    by_cases hx : x = t <;> simp [hx]
  · rw [hget k, hf.get?_eq]
    by_cases hkt : k = t
    · rw [if_pos hkt, if_pos (by simp [hkt])]
    · by_cases hkts : k ∈ ts
      · rw [if_neg hkt, if_pos hkts, if_pos (by simp [hkts])]
        rfl
      · rw [if_neg hkt, if_neg hkts, if_neg (by simp [hkt, hkts]), Option.map_map]
        cases hm : g.get? k with
        | none => rfl
        | some m =>
            rw [Option.map_some, Option.map_some, Function.comp_apply,
              bypass_foldedNode hg hts hf hn hpad hm]
  · intro t' m s r ht' hm hs hr
    rcases List.mem_append.mp ht' with ht' | ht'
    · exact hf.readers ht' hm hs hr
    · rw [List.mem_singleton.mp ht', hn] at hm
      injection hm with hm
      subst hm
      -- A reader that took the padding is a convolution, and was one before.
      obtain ⟨r₁, hr₁, hany⟩ := hreaders s hs
      rw [hf.get?_eq, if_neg (succ_not_mem hg hts hn hs), hr] at hr₁
      injection hr₁ with hr₁
      rw [← hr₁] at hany
      rcases absorbed_cases g ts r with ⟨hl, _⟩ | ⟨_, padding', shapes', _, _, _, hl⟩
      · rw [foldedNode, hl] at hany
        cases hc : r.layer.kind.padding? with
        | none => rw [hc] at hany; contradiction
        | some _ => rfl
      · rw [foldedNode, hl, absorbs_padded] at hany
        cases hc : r.layer.kind.padding? with
        | none => rw [hc] at hany; contradiction
        | some _ => rfl

end Step

/-- Folding padding layers one after another. -/
theorem Folded.all {g : Graph} {ts hs : List Handle} {w w' : Workspace} (hg : g.Linked)
    (hts : g.handlesWhere isPadding = ts ++ hs) (hf : Folded g w.graph ts)
    (hw : w.graph.Linked) (hall : fusePaddingAll hs w = .ok () w') :
    Folded g w'.graph (ts ++ hs) ∧ w'.graph.Linked := by
  induction hs generalizing ts w with
  | nil =>
      injection hall with _ hall
      subst hall
      rw [List.append_nil]
      exact ⟨hf, hw⟩
  | cons t hs ih =>
      obtain ⟨_, v, hat, hall⟩ := Work.bind_eq_ok.mp hall
      obtain ⟨hf', hv⟩ := hf.step hg hts rfl hw hat
      have hts' : g.handlesWhere isPadding = (ts ++ [t]) ++ hs := by
        rw [hts, List.append_assoc, List.singleton_append]
      have hnext := ih hts' hf' hv hall
      rwa [List.append_assoc, List.singleton_append] at hnext

/-- The graph that the pass leaves is the one with all padding layers folded. -/
theorem folded_of_fusePadding {w w' : Workspace} {count : Nat} (hg : w.graph.Linked)
    (hp : fusePadding w = .ok count w') :
    Folded w.graph w'.graph (w.graph.handlesWhere isPadding) ∧ w'.graph.Linked :=
  (folded_nil _).all hg rfl hg (sweep_eq_ok hp)

end Simplify

end NeuralC
