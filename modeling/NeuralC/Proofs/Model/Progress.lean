import NeuralC.Model.Line

/-!
# NeuralC.Proofs.Model.Progress

Reading a line comes to an end.  Two readers are loops over the rest of a line:
`items` reads items between commas up to a closing character, and `params` reads
parameters up to an arrow.  `itemRound` and `paramRound` are one round of them,
and `Round.run` runs a loop for a number of rounds and gives up when these are
used up.

A round that goes on has taken characters, whatever the text is, so a loop that
is given more rounds than there are characters never gives up, and comes to what
the reader gives (`ends_items`, `ends_params`).
-/

namespace NeuralC.Model

open NeuralC.Text

/-! ## Rounds -/

/-- One round of a loop over the rest of a line: it stops with a result, or takes an item and
goes on with what is behind it. -/
inductive Round (α : Type) where
  | stop (result : Except ModelCause (List α × List Char))
  | next (item : α) (rest : List Char)

namespace Round

variable {α : Type}

def prepend (a : α) :
    Except ModelCause (List α × List Char) → Except ModelCause (List α × List Char)
  | .ok (as, rest) => .ok (a :: as, rest)
  | .error e => .error e

/-- The result of a round when what is behind it is left to a reader. -/
def finish (read : List Char → Except ModelCause (List α × List Char)) :
    Round α → Except ModelCause (List α × List Char)
  | stop result => result
  | next a rest => prepend a (read rest)

/-- Runs a loop for a number of rounds; there is no result when they are used up. -/
def run (round : List Char → Round α) :
    Nat → List Char → Option (Except ModelCause (List α × List Char))
  | 0, _ => none
  | n + 1, cs =>
    match round cs with
    | stop result => some result
    | next a rest => (run round n rest).map (prepend a)

/-- A loop ends, with what a reader gives, in any number of rounds above the number of
characters. -/
def Ends (round : List Char → Round α)
    (read : List Char → Except ModelCause (List α × List Char)) : Prop :=
  ∀ cs n, cs.length < n → run round n cs = some (read cs)

/-- A loop whose rounds take characters ends. -/
theorem ends_of_shorter {round : List Char → Round α}
    {read : List Char → Except ModelCause (List α × List Char)}
    (hread : ∀ cs, read cs = (round cs).finish read)
    (hshorter : ∀ cs a rest, round cs = next a rest → rest.length < cs.length) :
    Ends round read := by
  intro cs n hn
  induction n generalizing cs with
  | zero => omega
  | succ n ih =>
      rw [run, hread]
      cases hround : round cs with
      | stop result => rfl
      | next a rest =>
          have hrest := hshorter cs a rest hround
          have hrun := ih rest (by omega)
          simp only [hrun, Option.map_some, finish]

end Round

/-! ## Items -/

section Items

variable {α : Type} (close : Char) (item : String → Except ModelCause α)

/-- One round of `items`: an item, and the closing character or a comma. -/
def itemRound (cs : List Char) : Round α :=
  match word cs with
  | .error e => .stop (.error e)
  | .ok (w, rest) =>
    match item w with
    | .error e => .stop (.error e)
    | .ok a =>
      match skip? close rest with
      | some rest' => .stop (.ok ([a], rest'))
      | none =>
        match expect ',' rest with
        | .error e => .stop (.error e)
        | .ok rest' => .next a rest'

/-- Reading a list is one round and the rest. -/
theorem items_eq_finish (cs : List Char) :
    items close item cs = (itemRound close item cs).finish (items close item) := by
  fun_cases items close item cs <;> simp_all [itemRound, Round.finish, Round.prepend]

/-- A round that goes on leaves less text. -/
theorem itemRound_shorter {cs rest : List Char} {a : α}
    (h : itemRound close item cs = .next a rest) : rest.length < cs.length := by
  unfold itemRound at h
  split at h
  · cases h
  · next w rest₁ hword =>
    split at h
    · cases h
    · split at h
      · cases h
      · split at h
        · cases h
        · next rest₂ hcomma =>
          cases h
          exact Nat.lt_trans (length_expect_lt hcomma) (length_word_lt hword)

/-- Reading a list ends. -/
theorem ends_items : Round.Ends (itemRound close item) (items close item) :=
  Round.ends_of_shorter (items_eq_finish close item) fun _ _ _ => itemRound_shorter close item

end Items

/-! ## Parameters -/

/-- One round of `params`: the arrow, or a key with its value. -/
def paramRound (name : String) (cs : List Char) : Round (String × String) :=
  match trimStart cs with
  | '-' :: '>' :: rest => .stop (.ok ([], rest))
  | [] => .stop (.error (.noShape name))
  | _ =>
    match word cs with
    | .error e => .stop (.error e)
    | .ok (key, rest) =>
      match expect '=' rest with
      | .error e => .stop (.error e)
      | .ok rest' =>
        match value rest' with
        | .error e => .stop (.error e)
        | .ok (v, rest'') => .next (key, v) rest''

/-- Reading parameters is one round and the rest. -/
theorem params_eq_finish (name : String) (cs : List Char) :
    params name cs = (paramRound name cs).finish (params name) := by
  fun_cases params name cs <;> simp_all [paramRound, Round.finish, Round.prepend]

/-- A round of parameters that goes on leaves less text. -/
theorem paramRound_shorter {name : String} {cs rest : List Char} {p : String × String}
    (h : paramRound name cs = .next p rest) : rest.length < cs.length := by
  unfold paramRound at h
  split at h
  · cases h
  · cases h
  · split at h
    · cases h
    · next key rest₁ hkey =>
      split at h
      · cases h
      · next rest₂ hequals =>
        split at h
        · cases h
        · next v rest₃ hvalue =>
          cases h
          have hrest := Nat.lt_trans (length_value_lt hvalue) (length_expect_lt hequals)
          exact Nat.lt_trans hrest (length_word_lt hkey)

/-- Reading parameters ends. -/
theorem ends_params (name : String) : Round.Ends (paramRound name) (params name) :=
  Round.ends_of_shorter (params_eq_finish name) fun _ _ _ => paramRound_shorter

end NeuralC.Model
