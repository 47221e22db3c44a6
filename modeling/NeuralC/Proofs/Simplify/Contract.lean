import NeuralC.Proofs.Graph.Contract
import NeuralC.Proofs.Graph.Histories
import NeuralC.Proofs.Simplify.Bypass
import NeuralC.Proofs.Simplify.Names

/-!
# NeuralC.Proofs.Simplify.Contract

Which passes keep the contract of a graph.  Taking a layer out keeps everything
the contract says about single nodes and pairs (`Bypassed.framed`).  What it may
break is that one node ends the graph: where the last layer goes and has several
operands, each of them may be left without readers.

`Ends` says of a layer, in the graph before a pass, that the pass leaves it
without readers.  A step does not change which layers these are
(`Bypassed.ends_iff`), so the graph that is left has one sink exactly when there
is one such layer (`verify_iff_of_shrinks`).
-/

namespace NeuralC.Simplify

open NeuralC.Graph

/-! ## Nodes and names -/

namespace Bypassed

variable {g g' : Graph} {h : Handle} {n : Node} (hb : Bypassed g g' h n) (hg : g.Framed)
  (hi : n.layer.isInput = false)

include hb hg hi

theorem input?_ne : g.input? ≠ some h := by
  intro hf
  rw [hg.first_isInput hf hb.get?_gone] at hi
  contradiction

/-- The input stays in front. -/
theorem input?_eq : g'.input? = g.input? := by
  rw [input?, hb.order_eq]
  exact head?_erase_of_ne (hb.input?_ne hg hi)

/-- A node that stays has operands, since the node that goes had some. -/
theorem preds_ne_nil {m : Node} (hm : m.preds ≠ []) : substitute h n.preds m.preds ≠ [] := by
  obtain ⟨q, hq⟩ := List.exists_mem_of_ne_nil _ (hg.inner (hb.input?_ne hg hi) hb.get?_gone).2
  obtain ⟨x, hx⟩ := List.exists_mem_of_ne_nil _ hm
  by_cases hxh : x = h
  · exact List.ne_nil_of_mem (mem_substitute.mpr (.inr ⟨hxh ▸ hx, hq⟩))
  · exact List.ne_nil_of_mem (mem_substitute.mpr (.inl ⟨hxh, hx⟩))

/-- Bypassing a layer that is no input keeps the graph framed. -/
theorem framed : g'.Framed := by
  have hinput := hb.input?_eq hg hi
  refine ⟨⟨hb.linked, ?_⟩, ?_, ?_, ?_⟩
  · intro k m' hk hm'
    obtain ⟨_, m, hm, hl, _⟩ := hb.origin hg.toLinked hm'
    rw [isInput_reworked hl]
    exact hg.first_isInput (hinput ▸ hk) hm
  · intro hnil
    rw [input?, input?, hnil] at hinput
    exact hg.nonempty (List.head?_eq_none_iff.mp hinput.symm)
  · intro k m' hk hm'
    obtain ⟨_, m, hm, hl, hpreds, _⟩ := hb.origin hg.toLinked hm'
    obtain ⟨hnot, hne⟩ := hg.inner (hinput ▸ hk) hm
    rw [isInput_reworked hl, hpreds]
    exact ⟨hnot, hb.preds_ne_nil hg hi hne⟩
  · intro a b m' r' hm' hr' hname
    obtain ⟨_, m, hm, hlm, _⟩ := hb.origin hg.toLinked hm'
    obtain ⟨_, r, hr, hlr, _⟩ := hb.origin hg.toLinked hr'
    refine hg.name_inj hm hr ?_
    rw [Node.name, Node.name, ← hlm.name_eq, ← hlr.name_eq]
    exact hname

end Bypassed

/-! ## Layers left without readers -/

/-- A layer that goes, and with it all that is computed from it. -/
inductive Drained (g : Graph) (p : LayerKind → Bool) : Handle → Prop where
  | intro {h : Handle} {n : Node} : g.get? h = some n → p n.layer.kind = true →
    (∀ s ∈ n.succs, Drained g p s) → Drained g p h

/-- A layer that stays when all that is computed from it goes. -/
def Ends (g : Graph) (p : LayerKind → Bool) (k : Handle) : Prop :=
  ∃ n, g.get? k = some n ∧ p n.layer.kind = false ∧ ∀ s ∈ n.succs, Drained g p s

/-- From a drained layer one comes to drained layers only. -/
theorem Drained.succs {g : Graph} {p : LayerKind → Bool} {h : Handle} {n : Node}
    (hd : Drained g p h) (hn : g.get? h = some n) :
    p n.layer.kind = true ∧ ∀ s ∈ n.succs, Drained g p s := by
  cases hd with
  | intro hm hk hs =>
      rw [hn] at hm
      injection hm with hm
      subst hm
      exact ⟨hk, hs⟩

theorem Ends.kind_eq {g : Graph} {p : LayerKind → Bool} {k : Handle} {n : Node}
    (he : Ends g p k) (hn : g.get? k = some n) : p n.layer.kind = false := by
  obtain ⟨m, hm, hkind, _⟩ := he
  rw [hn] at hm
  injection hm with hm
  exact hm ▸ hkind

namespace Bypassed

variable {g g' : Graph} {h k : Handle} {n : Node} {p : LayerKind → Bool}
  (hb : Bypassed g g' h n) (hg : g.Linked) (hp : Steady p) (hn : p n.layer.kind = true)

include hb hg hp

include hn in
/-- What is drained after a bypass was so before. -/
theorem drained_of_drained (hd : Drained g' p k) : Drained g p k := by
  induction hd with
  | intro hm' hk _ ih =>
      obtain ⟨_, m, hm, hl, _, hsuccs⟩ := hb.origin hg hm'
      refine .intro hm (hp.reworked hl ▸ hk) fun s hs => ?_
      by_cases hsh : s = h
      · -- Where the node that goes is read, its own readers are read from now on.
        subst hsh
        refine .intro hb.get?_gone hn fun t ht => ih t ?_
        rw [hsuccs]
        exact mem_substitute.mpr (.inr ⟨hs, ht⟩)
      · refine ih s ?_
        rw [hsuccs]
        exact mem_substitute.mpr (.inl ⟨hsh, hs⟩)

/-- What stays keeps being drained. -/
theorem drained_bypassed (hd : Drained g p k) (hkh : k ≠ h) : Drained g' p k := by
  -- The node that goes has to be followed to its readers, so it is part of the induction.
  suffices hall : (k ≠ h → Drained g' p k) ∧ (k = h → ∀ s ∈ n.succs, Drained g' p s) from
    hall.1 hkh
  clear hkh
  induction hd with
  | @intro k m hm hk _ ih =>
      refine ⟨fun hkh => ?_, fun hkh s hs => ?_⟩
      · obtain ⟨m', hm', hl, _, hsuccs⟩ := hb.kept hkh hm
        refine .intro hm' (hp.reworked hl ▸ hk) fun s hs => ?_
        rw [hsuccs] at hs
        rcases mem_substitute.mp hs with ⟨hsh, hs⟩ | ⟨hh, hs⟩
        · exact (ih s hs).1 hsh
        · exact (ih h hh).2 rfl s hs
      · subst hkh
        rw [hb.get?_gone] at hm
        injection hm with hm
        subst hm
        exact (ih s hs).1 fun he => hg.not_mem_succs hb.get?_gone (he ▸ hs)

include hn

/-- Taking out a layer that goes does not change which layers are left without readers. -/
theorem ends_iff : Ends g' p k ↔ Ends g p k := by
  constructor
  · rintro ⟨m', hm', hk, hs'⟩
    obtain ⟨_, m, hm, hl, _, hsuccs⟩ := hb.origin hg hm'
    have hdrained : ∀ t ∈ substitute h n.succs m.succs, Drained g p t := fun t ht =>
      hb.drained_of_drained hg hp hn (hs' t (hsuccs ▸ ht))
    refine ⟨m, hm, hp.reworked hl ▸ hk, fun s hs => ?_⟩
    by_cases hsh : s = h
    · subst hsh
      exact .intro hb.get?_gone hn fun t ht =>
        hdrained t (mem_substitute.mpr (.inr ⟨hs, ht⟩))
    · exact hdrained s (mem_substitute.mpr (.inl ⟨hsh, hs⟩))
  · rintro ⟨m, hm, hk, hs⟩
    have hkh : k ≠ h := by
      rintro rfl
      rw [Ends.kind_eq ⟨m, hm, hk, hs⟩ hb.get?_gone] at hn
      contradiction
    obtain ⟨m', hm', hl, _, hsuccs⟩ := hb.kept hkh hm
    refine ⟨m', hm', hp.reworked hl ▸ hk, fun s hs' => ?_⟩
    rw [hsuccs] at hs'
    rcases mem_substitute.mp hs' with ⟨hsh, hsm⟩ | ⟨hh, hsn⟩
    · exact hb.drained_bypassed hg hp (hs s hsm) hsh
    · have hsh : s ≠ h := fun he => hg.not_mem_succs hb.get?_gone (he ▸ hsn)
      exact hb.drained_bypassed hg hp (((hs h hh).succs hb.get?_gone).2 s hsn) hsh

end Bypassed

/-! ## Passes that take all layers of a kind out -/

theorem isInput_of_kind {p : LayerKind → Bool} (hinput : p .input = false) {l : Layer}
    (hl : p l.kind = true) : l.isInput = false := by
  rw [Layer.isInput]
  cases hk : l.kind with
  | input =>
      rw [hk, hinput] at hl
      contradiction
  | _ => rfl

/-- Taking out layers of a kind keeps the rest of the contract, and which layers are left
without readers. -/
theorem Shrinks.framed {g g' : Graph} {hs : List Handle} {p : LayerKind → Bool}
    (hs' : Shrinks g g' hs) (hg : g.Framed) (hp : Steady p)
    (hinput : p .input = false) (hnd : hs.Nodup)
    (hhs : ∀ h ∈ hs, h ∈ g.handlesWhere p) :
    g'.Framed ∧ ∀ k, Ends g' p k ↔ Ends g p k := by
  induction hs' with
  | nil g => exact ⟨hg, fun k => Iff.rfl⟩
  | @cons g g₁ g' h n hs hb _ ih =>
      obtain ⟨hnot, hnd⟩ := List.nodup_cons.mp hnd
      have hn := kind_of_mem_handlesWhere (hhs h List.mem_cons_self) hb.get?_gone
      have hhs₁ : ∀ k ∈ hs, k ∈ g₁.handlesWhere p := by
        intro k hk
        have hkh : k ≠ h := fun he => hnot (he ▸ hk)
        rw [hb.handlesWhere_eq hg.toLinked hp, List.mem_erase_of_ne hkh]
        exact hhs k (List.mem_cons_of_mem h hk)
      obtain ⟨hg', hends⟩ := ih (hb.framed hg (isInput_of_kind hinput hn)) hnd hhs₁
      exact ⟨hg', fun k => (hends k).trans (hb.ends_iff hg.toLinked hp hn)⟩

/-- In a graph without layers of a kind, the layers that this kind leaves without readers are
the sinks. -/
theorem ends_iff_of_handlesWhere {g : Graph} {p : LayerKind → Bool} (hg : g.Linked)
    (hnone : g.handlesWhere p = []) {k : Handle} :
    Ends g p k ↔ ∃ n, g.get? k = some n ∧ n.succs = [] := by
  have hkind : ∀ {h n}, g.get? h = some n → p n.layer.kind = false := by
    intro h n hn
    by_contra hk
    have hmem : h ∈ g.handlesWhere p :=
      mem_handlesWhere.mpr ⟨hg.mem_of_get? hn, n, hn, by simpa using hk⟩
    rw [hnone] at hmem
    contradiction
  constructor
  · rintro ⟨n, hn, _, hs⟩
    refine ⟨n, hn, List.eq_nil_iff_forall_not_mem.mpr fun s hsn => ?_⟩
    cases hs s hsn with
    | intro hm hk _ =>
        rw [hkind hm] at hk
        contradiction
  · rintro ⟨n, hn, hnil⟩
    exact ⟨n, hn, hkind hn, by simp [hnil]⟩

/-- The last node is the only sink exactly when there is one sink. -/
theorem oneSink_iff {g : Graph} (hg : g.Framed) :
    g.OneSink ↔ ∃! k, ∃ n, g.get? k = some n ∧ n.succs = [] := by
  obtain ⟨o, ho⟩ := hg.exists_output?
  obtain ⟨m, hm⟩ := hg.exists_get? (List.mem_of_getLast? ho)
  have hlast := hg.succs_last ho hm
  constructor
  · intro hs
    refine ⟨o, ⟨m, hm, hlast⟩, fun k ⟨n, hn, hnil⟩ => ?_⟩
    have hk := hs k n hn hnil
    rw [ho] at hk
    injection hk with hk
    exact hk.symm
  · intro hone k n hn hnil
    rw [hone.unique ⟨n, hn, hnil⟩ ⟨m, hm, hlast⟩, ho]

/-- A graph without the layers of a kind keeps the contract exactly when they leave one layer
without readers. -/
theorem verify_iff_of_shrinks {g g' : Graph} {p : LayerKind → Bool} (hg : g.Framed)
    (hs : Shrinks g g' (g.handlesWhere p)) (hp : Steady p)
    (hinput : p .input = false) :
    g'.verify = .ok () ↔ ∃! k, Ends g p k := by
  have hnone := hs.handlesWhere_eq_nil hg.toLinked hp
  obtain ⟨hg', hends⟩ := hs.framed hg hp hinput (hg.nodup.filter _) fun _ hh => hh
  have hsinks : (∃! k, Ends g p k) ↔ ∃! k, ∃ n, g'.get? k = some n ∧ n.succs = [] := by
    simp only [← ends_iff_of_handlesWhere hg'.toLinked hnone, hends]
  rw [hsinks, ← oneSink_iff hg', verify_eq_ok_iff hg'.listed]
  exact and_iff_right hg'

/-! ## Where one layer is left -/

/-- The layer `d` goes, and it is computed from `k` through layers that go. -/
inductive Leads (g : Graph) (p : LayerKind → Bool) (k : Handle) : Handle → Prop where
  | here {d : Handle} {n : Node} : g.get? d = some n → p n.layer.kind = true → k ∈ n.preds →
    Leads g p k d
  | there {d e : Handle} {n : Node} : g.get? d = some n → p n.layer.kind = true → e ∈ n.preds →
    Leads g p k e → Leads g p k d

section

variable {g : Graph} {p : LayerKind → Bool} {k d : Handle}

/-- A layer that is led to does not stay. -/
theorem Leads.not_stays (hl : Leads g p k d)
    (hstays : ∀ {n}, g.get? d = some n → p n.layer.kind = false) : False := by
  cases hl with
  | here hm hp _ | there hm hp _ _ =>
      rw [hstays hm] at hp
      contradiction

variable (hg : g.Linked) (hs : g.OneSink)

include hg hs

/-- When all goes that is computed from a layer, so does the last one. -/
theorem Drained.leads_output (hd : Drained g p d) (hl : Leads g p k d) :
    ∃ o, g.output? = some o ∧ Leads g p k o := by
  induction hd with
  | @intro d n hn hp hdrained ih =>
      cases hsuccs : n.succs with
      | nil => exact ⟨d, hs d n hn hsuccs, hl⟩
      | cons s ss =>
          have hmem : s ∈ n.succs := by simp [hsuccs]
          cases hdrained s hmem with
          | intro hm hkind _ =>
              exact ih s hmem (.there hm hkind ((hg.mem_succs_iff hn hm).mp hmem) hl)

/-- A layer that is left without readers is the last one, or leads to it. -/
theorem Ends.output?_or_leads (he : Ends g p k) :
    g.output? = some k ∨ ∃ o, g.output? = some o ∧ Leads g p k o := by
  obtain ⟨n, hn, _, hdrained⟩ := he
  cases hsuccs : n.succs with
  | nil => exact .inl (hs k n hn hsuccs)
  | cons s ss =>
      have hmem : s ∈ n.succs := by simp [hsuccs]
      refine .inr ((hdrained s hmem).leads_output hg hs ?_)
      cases hdrained s hmem with
      | intro hm hkind _ => exact .here hm hkind ((hg.mem_succs_iff hn hm).mp hmem)

/-- Where the last layer stays, it alone is left without readers. -/
theorem existsUnique_ends_of_output {o : Handle} {m : Node} (ho : g.output? = some o)
    (hm : g.get? o = some m) (hstays : p m.layer.kind = false) : ∃! k, Ends g p k := by
  have he : Ends g p o := ⟨m, hm, hstays, by simp [hg.succs_last ho hm]⟩
  refine ⟨o, he, fun k hk => ?_⟩
  rcases hk.output?_or_leads hg hs with hout | ⟨o', hout, hleads⟩
  · exact Option.some.inj (hout.symm.trans ho)
  · have hoo : o' = o := Option.some.inj (hout.symm.trans ho)
    exact ((hoo ▸ hleads).not_stays he.kind_eq).elim

omit hs in
/-- Behind a layer that does not go with all that is computed from it, some layer is left
without readers. -/
theorem exists_ends_of_not_drained {n : Node} (hn : g.get? k = some n)
    (hnot : ¬ Drained g p k) : ∃ e, Ends g p e := by
  -- The next such layer stands later in the order.
  induction hlen : g.order.length - g.order.idxOf k using Nat.strong_induction_on
    generalizing k n with
  | _ len ih =>
      by_cases hall : ∀ s ∈ n.succs, Drained g p s
      · cases hkind : p n.layer.kind with
        | true => exact absurd (.intro hn hkind hall) hnot
        | false => exact ⟨k, n, hn, hkind, hall⟩
      · push Not at hall
        obtain ⟨s, hs, hsnot⟩ := hall
        obtain ⟨r, hr⟩ := contains_iff.mp (hg.succ_live hn hs)
        obtain ⟨_, hmem, hlt⟩ := (before_iff_idxOf hg.nodup).mp (hg.forward_succ hn hs)
        have hbound := List.idxOf_lt_length_of_mem hmem
        exact ih (g.order.length - g.order.idxOf s) (by omega) hr hsnot rfl

omit hg hs in
/-- The input stays, so something is left without readers. -/
theorem exists_ends (hg : g.Framed) (hinput : p .input = false) : ∃ k, Ends g p k := by
  obtain ⟨x, hx⟩ : ∃ x, g.input? = some x :=
    Option.isSome_iff_exists.mp (List.isSome_head?.mpr hg.nonempty)
  obtain ⟨r, hr⟩ := hg.exists_get? (List.mem_of_mem_head? hx)
  refine exists_ends_of_not_drained hg.toLinked hr fun hd => ?_
  have hin := isInput_of_kind hinput (hd.succs hr).1
  rw [hg.first_isInput hx hr] at hin
  contradiction

end

section

variable {g : Graph} {p : LayerKind → Bool}
  (hone : ∀ {h n}, g.get? h = some n → p n.layer.kind = true → n.preds.length = 1)

include hone

/-- Where each layer that goes has one operand, it is computed from one layer that stays. -/
theorem Leads.unique {k k' d : Handle} (hl : Leads g p k d) (hl' : Leads g p k' d)
    (hk : ∀ {n}, g.get? k = some n → p n.layer.kind = false)
    (hk' : ∀ {n}, g.get? k' = some n → p n.layer.kind = false) : k = k' := by
  have hsame : ∀ {d n n' x y}, g.get? d = some n → p n.layer.kind = true → x ∈ n.preds →
      g.get? d = some n' → y ∈ n'.preds → x = y := by
    intro d n n' x y hn hp hx hn' hy
    obtain ⟨q, hq⟩ := List.length_eq_one_iff.mp (hone hn hp)
    rw [hn] at hn'
    injection hn' with hn'
    rw [← hn', hq, List.mem_singleton] at hy
    rw [hq, List.mem_singleton] at hx
    rw [hx, hy]
  induction hl with
  | here hn hp hx =>
      cases hl' with
      | here hn' _ hy => exact hsame hn hp hx hn' hy
      | there hn' _ hy he => exact ((hsame hn hp hx hn' hy ▸ he).not_stays hk).elim
  | there hn hp hx he ih =>
      cases hl' with
      | here hn' _ hy => exact ((hsame hn hp hx hn' hy ▸ he).not_stays hk').elim
      | there hn' _ hy he' => exact ih (hsame hn hp hx hn' hy ▸ he')

/-- Where each layer that goes has one operand, one layer is left without readers. -/
theorem existsUnique_ends_of_single (hg : g.Framed) (hs : g.OneSink)
    (hinput : p .input = false) : ∃! k, Ends g p k := by
  obtain ⟨e, he⟩ := exists_ends hg hinput
  refine ⟨e, he, fun k hk => ?_⟩
  rcases hk.output?_or_leads hg.toLinked hs with ho | ⟨o, ho, hl⟩ <;>
    rcases he.output?_or_leads hg.toLinked hs with ho' | ⟨o', ho', hl'⟩
  · exact Option.some.inj (ho.symm.trans ho')
  · have hko : k = o' := Option.some.inj (ho.symm.trans ho')
    subst hko
    exact (hl'.not_stays hk.kind_eq).elim
  · have hoe : o = e := Option.some.inj (ho.symm.trans ho')
    subst hoe
    exact (hl.not_stays he.kind_eq).elim
  · have hoo : o = o' := Option.some.inj (ho.symm.trans ho')
    subst hoo
    exact hl.unique hone hl' hk.kind_eq he.kind_eq

end

/-! ## Activations and names -/

/-- Folding an activation keeps the graph framed. -/
theorem Merged.framed {g g' : Graph} {h q : Handle} {n m : Node} {outer inner f : Activation}
    (hm : Merged g g' h q n m outer inner f) (hg : g.Framed) : g'.Framed := by
  refine (hm.bypassed hg.toLinked).framed hg ?_
  rw [Layer.isInput, hm.kind_eq]

/-- Folding activations keeps the contract: a folded one has a single operand. -/
theorem framed_of_fuseActivationAll {ts : List Handle} {count : Nat} {w w' : Workspace}
    (hg : w.graph.Framed) (hs : w.graph.OneSink) (hf : fuseActivationAll ts w = .ok count w') :
    w'.graph.Framed ∧ w'.graph.OneSink :=
  fuseActivationAll_induction (P := fun _ g => g.Framed ∧ g.OneSink) (fun h _ => h)
    (fun h hm => ⟨hm.framed h.1, hm.oneSink h.1.toLinked h.2⟩) ⟨hg, hs⟩ hf

/-- Renaming does not give one name twice. -/
theorem framed_renameLayers {count : Nat} {w w' : Workspace} (hg : w.graph.Framed)
    (hr : renameLayers w = .ok count w') : w'.graph.Framed := by
  obtain ⟨horder, _, _, hnd⟩ := renameLayers_cases hr
  have hinput : w'.graph.input? = w.graph.input? := by rw [input?, input?, horder]
  have hnode : ∀ {k n'}, w'.graph.get? k = some n' →
      ∃ n, w.graph.get? k = some n ∧ n' = n.named (identifier n.name) := by
    intro k n' hn'
    rw [get?_renameLayers hg.toLinked hr, Option.map_eq_some_iff] at hn'
    obtain ⟨n, hn, he⟩ := hn'
    exact ⟨n, hn, he.symm⟩
  refine ⟨⟨linked_renameLayers hg.toLinked hr, ?_⟩, ?_, ?_, ?_⟩
  · intro k n' hk hn'
    obtain ⟨n, hn, rfl⟩ := hnode hn'
    have hfirst : n.layer.isInput = true := hg.first_isInput (hinput ▸ hk) hn
    exact hfirst
  · rw [horder]
    exact hg.nonempty
  · intro k n' hk hn'
    obtain ⟨n, hn, rfl⟩ := hnode hn'
    have hinner : n.layer.isInput = false ∧ n.preds ≠ [] := hg.inner (hinput ▸ hk) hn
    exact hinner
  · intro a b m' n' hm' hn' hname
    obtain ⟨m, hm, rfl⟩ := hnode hm'
    obtain ⟨n, hn, rfl⟩ := hnode hn'
    rw [Node.name_named, Node.name_named] at hname
    refine List.inj_on_of_nodup_map hnd (hg.mem_of_get? hm) (hg.mem_of_get? hn) ?_
    rw [nameOf_of_get? hm, nameOf_of_get? hn, hname]

/-- Renaming keeps the contract: names stay apart, and the last layer stays the last. -/
theorem framed_of_renameLayers {count : Nat} {w w' : Workspace} (hg : w.graph.Framed)
    (hs : w.graph.OneSink) (hr : renameLayers w = .ok count w') :
    w'.graph.Framed ∧ w'.graph.OneSink := by
  refine ⟨framed_renameLayers hg hr, fun k n' hn' hnil => ?_⟩
  rw [get?_renameLayers hg.toLinked hr, Option.map_eq_some_iff] at hn'
  obtain ⟨n, hn, rfl⟩ := hn'
  rw [output?, (renameLayers_cases hr).1]
  exact hs k n hn hnil

/-! ## Every pass -/

/-- The passes that take all layers of a kind out, with the kind. -/
def shrinking : List (Work Nat × (LayerKind → Bool)) :=
  [(removeIdentity, isIdentity), (removeDropout, isDropout), (fusePadding, isPadding)]

/-- Each of the passes that take layers away takes away those of its kind. -/
theorem shrinks_of_shrinking {pass : Work Nat} {p : LayerKind → Bool}
    (hpass : (pass, p) ∈ shrinking) :
    Steady p ∧ p .input = false ∧ ∀ {count w w'}, w.graph.Linked → pass w = .ok count w' →
      Shrinks w.graph w'.graph (w.graph.handlesWhere p) := by
  simp only [shrinking, List.mem_cons, Prod.mk.injEq, List.not_mem_nil, or_false] at hpass
  rcases hpass with ⟨rfl, rfl⟩ | ⟨rfl, rfl⟩ | ⟨rfl, rfl⟩
  · exact ⟨steady_isIdentity, rfl, shrinks_of_removeWhere⟩
  · exact ⟨steady_isDropout, rfl, shrinks_of_removeWhere⟩
  · exact ⟨steady_isPadding, rfl, shrinks_of_fusePadding⟩

/-- What becomes of the contract.  Folding activations and renaming keep it.  A pass that
takes all layers of a kind out keeps it exactly when one layer is left without readers, and so
where the last layer stays and where each layer that goes has one operand. -/
theorem verify_after_pass {w : Workspace} (hv : w.graph.verify = .ok ()) (hl : w.graph.Listed) :
    (∀ pass p, (pass, p) ∈ shrinking → ∀ count w', pass w = .ok count w' →
      (w'.graph.verify = .ok () ↔ ∃! k, Ends w.graph p k) ∧
      ((∀ o n, w.graph.output? = some o → w.graph.get? o = some n → p n.layer.kind = false) ∨
        (∀ h n, w.graph.get? h = some n → p n.layer.kind = true → n.preds.length = 1) →
        w'.graph.verify = .ok ())) ∧
    (∀ count w', fuseActivation w = .ok count w' → w'.graph.verify = .ok ()) ∧
    ∀ count w', renameLayers w = .ok count w' → w'.graph.verify = .ok () := by
  have hg := framed_of_verify hv hl
  have hs := oneSink_of_verify hv hl
  refine ⟨fun pass p hpass count w' hrun => ?_, fun count w' hf => ?_, fun count w' hr => ?_⟩
  · obtain ⟨hp, hinput, hshrinks⟩ := shrinks_of_shrinking hpass
    have hiff := verify_iff_of_shrinks hg (hshrinks hg.toLinked hrun) hp hinput
    refine ⟨hiff, fun hcond => hiff.mpr ?_⟩
    rcases hcond with hstays | hone
    · obtain ⟨o, ho⟩ := hg.exists_output?
      obtain ⟨m, hm⟩ := hg.exists_get? (List.mem_of_getLast? ho)
      exact existsUnique_ends_of_output hg.toLinked hs ho hm (hstays o m ho hm)
    · exact existsUnique_ends_of_single (hone _ _) hg hs hinput
  · replace hf := fuseActivationAll_of_fuseActivation hf
    obtain ⟨hg', hs'⟩ := framed_of_fuseActivationAll hg hs hf
    exact hg'.verify_eq_ok hs'
  · obtain ⟨hg', hs'⟩ := framed_of_renameLayers hg hs hr
    exact hg'.verify_eq_ok hs'

/-- Calls that build a layer for every pass: an identity with two operands, padding, an
activation, a name that is no identifier, and a dropout in last place. -/
def layerForEach : List Edit := [
  .addInput (.source "x" [1, 2, 1]),
  .insert ⟨"i", [[1, 2, 1], [1, 2, 1]], [[1, 2, 1]], .float32, .identity⟩ [0, 0] [],
  .insert ⟨"s", [[1, 2, 1], [1, 2, 1]], [[1, 2, 1]], .float32, .add .linear⟩ [1] [],
  .insert ⟨"pad", [[1, 2, 1]], [[1, 4, 1]], .float32, .zeroPadding1D [(1, 1)]⟩ [2] [],
  .insert ⟨"conv/1", [[1, 4, 1]], [[1, 2, 1]], .float32, .conv1D {
    filters := 1, kernelSize := [3], strides := [1], groups := 1, padding := [],
    activation := .linear, kernel := ⟨[1, 3, 1], .f32 [1, 1, 1]⟩, bias := none }⟩ [3] [],
  .insert ⟨"relu", [[1, 2, 1]], [[1, 2, 1]], .float32, .activation .relu⟩ [4] [],
  .insert ⟨"drop", [[1, 2, 1]], [[1, 2, 1]], .float32, .dropout 0.5⟩ [5] []]

/-- Every pass finds a layer to work on and leaves a graph that is accepted. -/
theorem verify_layerForEach :
    let w := history {} layerForEach
    w.graph.verify = .ok () ∧ w.graph.Listed ∧
      ∀ pass ∈ [removeIdentity, removeDropout, fusePadding, fuseActivation, renameLayers],
        ∃ w', pass w = .ok 1 w' ∧ w'.graph.verify = .ok () := by
  intro w
  have hv : w.graph.verify = .ok () := by decide
  have hl : w.graph.Listed :=
    (Workspace.wellFormed_afterAll wellFormed_empty layerForEach).toLinked.listed
  have hone : ∀ h n, w.graph.get? h = some n → isDropout n.layer.kind = true →
      n.preds.length = 1 := by
    intro h n hn hk
    have hall := hl.all_get? (p := fun n => !isDropout n.layer.kind || n.preds.length == 1)
      (by decide) hn
    simpa [hk] using hall
  have hlast : ∀ p : LayerKind → Bool, p (.dropout 0.5) = false → ∀ o n,
      w.graph.output? = some o → w.graph.get? o = some n → p n.layer.kind = false := by
    intro p hp o n ho hn
    injection ho with ho
    subst ho
    injection hn with hn
    subst hn
    exact hp
  obtain ⟨hshrinking, hfuse, hrename⟩ := verify_after_pass hv hl
  refine ⟨hv, hl, ?_⟩
  simp only [List.forall_mem_cons, List.not_mem_nil, false_imp_iff, implies_true, and_true]
  refine ⟨⟨_, rfl, ?_⟩, ⟨_, rfl, ?_⟩, ⟨_, rfl, ?_⟩, ⟨_, rfl, ?_⟩, ⟨_, rfl, ?_⟩⟩
  · exact (hshrinking removeIdentity isIdentity (by simp [shrinking]) _ _ rfl).2
      (.inl (hlast isIdentity rfl))
  · exact (hshrinking removeDropout isDropout (by simp [shrinking]) _ _ rfl).2 (.inr hone)
  · exact (hshrinking fusePadding isPadding (by simp [shrinking]) _ _ rfl).2
      (.inl (hlast isPadding rfl))
  · exact hfuse _ _ rfl
  · exact hrename _ _ rfl

/-- Calls that build a layer with two operands in last place. -/
def joinedLast (kind : LayerKind) : List Edit := [
  .addInput (.source "x" [1, 2]),
  .insert ⟨"a", [[1, 2]], [[1, 2]], .float32, .activation .relu⟩ [0] [],
  .insert ⟨"b", [[1, 2]], [[1, 2]], .float32, .activation .relu⟩ [0] [],
  .insert ⟨"out", [[1, 2], [1, 2]], [[1, 2]], .float32, kind⟩ [1, 2] []]

/-- A pass leaves an accepted graph with a sink beside the last one. -/
def LeavesSink (pass : Work Nat) (kind : LayerKind) : Prop :=
  let w := history {} (joinedLast kind)
  w.graph.verify = .ok () ∧ w.graph.Listed ∧
    ∃ w', pass w = .ok 1 w' ∧ w'.graph.verify = .error (.editing "a" .innerSink)

/-- Two operands of the last layer are left without readers when it goes. -/
theorem innerSink_of_joinedLast :
    LeavesSink removeIdentity .identity ∧ LeavesSink removeDropout (.dropout 0.5) ∧
      LeavesSink fusePadding (.zeroPadding1D [(1, 1)]) := by
  have hl : ∀ kind, (history {} (joinedLast kind)).graph.Listed := fun kind =>
    (Workspace.wellFormed_afterAll wellFormed_empty (joinedLast kind)).toLinked.listed
  exact ⟨⟨by decide, hl _, _, rfl, by decide⟩, ⟨by decide, hl _, _, rfl, by decide⟩,
    ⟨by decide, hl _, _, rfl, by decide⟩⟩

end NeuralC.Simplify
