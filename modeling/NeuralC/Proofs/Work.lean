import Mathlib.Data.List.Forall2
import NeuralC.Work

/-!
# NeuralC.Proofs.Work

Running the steps of a compilation.  A result that is a value is taken apart
with `map_eq_ok`, `bind_eq_ok` and `mapM_eq_ok`.  Each step of `Work` has an
equation that says what it gives and what it leaves at work, so that a stage is
run by `simp`; a stage that succeeds is taken apart with `Work.bind_eq_ok`.
-/

namespace NeuralC

/-! ## Results -/

section Results

variable {ε α β : Type}

theorem map_eq_ok {x : Except ε α} {f : α → β} {b : β} :
    x.map f = .ok b ↔ ∃ a, x = .ok a ∧ f a = b := by
  cases x <;> simp [Except.map]

/-- A sequence comes to a value exactly when its first part does and then its second. -/
theorem bind_eq_ok {x : Except ε α} {f : α → Except ε β} {b : β} :
    x >>= f = .ok b ↔ ∃ a, x = .ok a ∧ f a = .ok b := by
  cases x <;> simp [bind, Except.bind]

/-- Looking for something that has to be there finds it. -/
theorem present_eq_ok {x : Option α} {a : α} : present x = .ok a ↔ x = some a := by
  cases x <;> simp [present]

theorem orFail_eq_ok {x : Except Diagnostic α} {a : α} : orFail x = .ok a ↔ x = .ok a := by
  cases x <;> simp [orFail]

/-- Without its failures, a result is its value. -/
theorem toOption_eq_some {x : Except ε α} {a : α} : x.toOption = some a ↔ x = .ok a := by
  cases x <;> simp [Except.toOption]

/-- What is done with a value can be done at the end. -/
theorem bind_eq_map {γ : Type} {x : Except ε α} {f : α → Except ε β} {f' : α → Except ε γ}
    {post : β → γ} (hf : ∀ a, f' a = (f a).map post) : x >>= f' = (x >>= f).map post := by
  cases x with
  | error e => rfl
  | ok a => exact hf a

/-- A list of results is a list of values when each is one. -/
theorem mapM_eq_ok {f : α → Except ε β} {as : List α} {bs : List β} :
    as.mapM f = .ok bs ↔ List.Forall₂ (fun a b => f a = .ok b) as bs := by
  induction as generalizing bs with
  | nil =>
      rw [List.mapM_nil, List.forall₂_nil_left_iff]
      simp [pure, Except.pure, eq_comm]
  | cons a as ih =>
      rw [List.mapM_cons, List.forall₂_cons_left_iff, bind_eq_ok]
      constructor
      · rintro ⟨b, hb, hrest⟩
        obtain ⟨cs, hcs, hbs⟩ := bind_eq_ok.mp hrest
        injection hbs with hbs
        exact ⟨b, cs, hb, ih.mp hcs, hbs.symm⟩
      · rintro ⟨b, cs, hb, hcs, rfl⟩
        exact ⟨b, hb, bind_eq_ok.mpr ⟨cs, ih.mpr hcs, rfl⟩⟩

/-- Where each step gives a value with a property, so do the steps together. -/
theorem exists_mapM_forall₂ {f : α → Except ε β} {R : α → β → Prop} {as : List α}
    (hf : ∀ a ∈ as, ∃ b, f a = .ok b ∧ R a b) :
    ∃ bs, as.mapM f = .ok bs ∧ List.Forall₂ R as bs := by
  induction as with
  | nil => exact ⟨[], rfl, .nil⟩
  | cons a as ih =>
      obtain ⟨b, hb, hr⟩ := hf a List.mem_cons_self
      obtain ⟨bs, hbs, hrs⟩ := ih fun a' ha' => hf a' (List.mem_cons_of_mem a ha')
      exact ⟨b :: bs, mapM_eq_ok.mpr (.cons hb (mapM_eq_ok.mp hbs)), .cons hr hrs⟩

/-- A step that comes to a value on every element does so on the list. -/
theorem exists_mapM_eq_ok {f : α → Except ε β} {as : List α} (hf : ∀ a ∈ as, ∃ b, f a = .ok b) :
    ∃ bs, as.mapM f = .ok bs := by
  obtain ⟨bs, hbs, _⟩ := exists_mapM_forall₂ fun a ha => (hf a ha).imp fun _ hb => ⟨hb, trivial⟩
  exact ⟨bs, hbs⟩

/-- Where each value is what some item stands for, so are the values together. -/
theorem exists_map_of_mapM {γ κ : Type} {f : α → Except ε β} {value : γ → β} {key : γ → κ}
    {want : α → κ} {as : List α} {bs : List β}
    (hf : ∀ a b, f a = .ok b → ∃ c, value c = b ∧ key c = want a) (has : as.mapM f = .ok bs) :
    ∃ cs : List γ, cs.map value = bs ∧ cs.map key = as.map want := by
  rw [mapM_eq_ok] at has
  induction has with
  | nil => exact ⟨[], rfl, rfl⟩
  | cons hab _ ih =>
      obtain ⟨c, rfl, hkey⟩ := hf _ _ hab
      obtain ⟨cs, rfl, hkeys⟩ := ih
      exact ⟨c :: cs, rfl, by rw [List.map_cons, hkey, hkeys, List.map_cons]⟩

theorem exists_of_forall₂_of_mem {R : α → β → Prop} {as : List α} {bs : List β}
    (h : List.Forall₂ R as bs) {b : β} (hb : b ∈ bs) : ∃ a, R a b := by
  induction h with
  | nil => simp at hb
  | cons hab _ ih =>
      rcases List.mem_cons.mp hb with rfl | hb
      · exact ⟨_, hab⟩
      · exact ih hb

theorem exists_mem_of_forall₂ {R : α → β → Prop} {as : List α} {bs : List β}
    (h : List.Forall₂ R as bs) {a : α} (ha : a ∈ as) : ∃ b ∈ bs, R a b := by
  induction h with
  | nil => simp at ha
  | cons hab _ ih =>
      rcases List.mem_cons.mp ha with rfl | ha
      · exact ⟨_, List.mem_cons_self, hab⟩
      · obtain ⟨b, hb, hr⟩ := ih ha
        exact ⟨b, List.mem_cons_of_mem _ hb, hr⟩

/-- Every result of a list comes from one of its elements. -/
theorem exists_of_mem_mapM {f : α → Except ε β} {as : List α} {bs : List β} {b : β}
    (has : as.mapM f = .ok bs) (hb : b ∈ bs) : ∃ a, f a = .ok b :=
  exists_of_forall₂_of_mem (mapM_eq_ok.mp has) hb

/-- Where one step comes to a value, another that agrees with it there does as well. -/
theorem mapM_ok_mono {f f' : α → Except ε β} {as : List α} {bs : List β}
    (hf : ∀ a ∈ as, ∀ b, f a = .ok b → f' a = .ok b) (has : as.mapM f = .ok bs) :
    as.mapM f' = .ok bs := by
  rw [mapM_eq_ok] at has ⊢
  induction has with
  | nil => exact .nil
  | cons hab _ ih =>
      refine .cons (hf _ List.mem_cons_self _ hab) (ih fun a ha => ?_)
      exact hf a (List.mem_cons_of_mem _ ha)

end Results

/-! ## Steps -/

namespace Work

variable {α β : Type}

@[simp] theorem pure_apply (a : α) (w : Workspace) : (pure a : Work α) w = .ok a w := rfl

/-- A sequence goes on where its first part came to a value, with what that left at work. -/
theorem bind_apply (x : Work α) (f : α → Work β) (w : Workspace) :
    (x >>= f) w = match x w with
      | .ok a w' => f a w'
      | .error e w' => .error e w' := by
  show EStateM.bind x f w = _
  unfold EStateM.bind
  cases x w <;> rfl

/-- A sequence succeeds when its parts do, one after the other. -/
theorem bind_eq_ok {x : Work α} {f : α → Work β} {w w' : Workspace} {b : β} :
    (x >>= f) w = .ok b w' ↔ ∃ a v, x w = .ok a v ∧ f a v = .ok b w' := by
  rw [bind_apply]
  cases x w with
  | ok a v =>
      refine ⟨fun hf => ⟨a, v, rfl, hf⟩, ?_⟩
      rintro ⟨a', v', hx, hf⟩
      injection hx with ha hv
      rw [ha, hv]
      exact hf
  | error e v => simp

/-- The graph at work is read off and stays. -/
@[simp] theorem graph_apply (w : Workspace) : graph w = .ok w.graph w := rfl

@[simp] theorem setGraph_apply (g : Graph) (w : Workspace) :
    setGraph g w = .ok () { w with graph := g } := rfl

@[simp] theorem note_apply (level : Level) (text : String) (w : Workspace) :
    note level text w = .ok () { w with session := w.session.note level text } := rfl

@[simp] theorem count_apply (f : Statistics → Statistics) (w : Workspace) :
    count f w = .ok () { w with session := { w.session with stats := f w.session.stats } } := rfl

@[simp] theorem recordType_apply (t : NumberType) (w : Workspace) :
    recordType t w = .ok () { w with session := w.session.recordType t } := rfl

@[simp] theorem throw_apply (f : Failure) (w : Workspace) :
    (throw f : Work α) w = .error f w := rfl

@[simp] theorem report_apply (d : Diagnostic) (w : Workspace) :
    (report d : Work α) w = .error (.reported d) w := rfl

@[simp] theorem attempt_ok (a : α) : attempt (.ok a) = pure a := rfl

@[simp] theorem attempt_error_apply (f : Failure) (w : Workspace) :
    (attempt (.error f) : Work α) w = .error f w := rfl

/-- What goes on with a value had it. -/
theorem attempt_eq_ok {x : Except Failure α} {a : α} {w w' : Workspace} :
    attempt x w = .ok a w' ↔ x = .ok a ∧ w' = w := by
  cases x with
  | ok b => simp [eq_comm]
  | error f => simp

/-- A check ends with its value or reports, and leaves the workspace as it is. -/
theorem check_apply (x : Except Diagnostic α) (w : Workspace) :
    check x w = match x with
      | .ok a => .ok a w
      | .error d => .error (.reported d) w := by
  cases x <;> rfl

/-! ## Runs -/

/-- Whether a run came to a value and left something with a property at work. -/
def leaves (p : α → Workspace → Bool) : EStateM.Result Failure Workspace α → Bool
  | .ok a w => p a w
  | .error _ _ => false

/-- Whether a run came to a failure. -/
def stops (f : Failure) : EStateM.Result Failure Workspace α → Bool
  | .ok _ _ => false
  | .error f' _ => f' = f

/-- A run can be carried out to see what it leaves. -/
theorem exists_of_leaves {x : Work α} {w : Workspace} {p : α → Workspace → Bool}
    (h : leaves p (x w) = true) : ∃ a w', x w = .ok a w' ∧ p a w' = true := by
  cases hx : x w with
  | ok a w' =>
      rw [hx] at h
      exact ⟨a, w', rfl, h⟩
  | error f w' =>
      rw [hx] at h
      contradiction

/-- A run can be carried out to see that it fails. -/
theorem exists_of_stops {x : Work α} {w : Workspace} {f : Failure}
    (h : stops f (x w) = true) : ∃ w', x w = .error f w' := by
  cases hx : x w with
  | ok a w' =>
      rw [hx] at h
      contradiction
  | error f' w' =>
      rw [hx] at h
      exact ⟨w', by rw [of_decide_eq_true h]⟩

end Work

end NeuralC
