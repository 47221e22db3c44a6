import NeuralC.C.Array
import NeuralC.Proofs.C.HexFloat
import NeuralC.Proofs.Size
import NeuralC.Proofs.Work

/-!
# NeuralC.Proofs.C.Initializer

Initializers of arrays read back.  `braces?` reads a nested list in braces as a
tree: tokens first, with white space left out, then the tree from a stack of the
braces that are open.  The initializer of a tensor is read as the tree that has
the shape of the tensor for its branching and the literals of the elements, in
row-major order, for its leaves.

A text `Reads` as a tree when the reader comes to the tree at its end, whatever
follows; the items between two braces `Fill` them.  An array of one dimension is
filled with words, and an array of more dimensions with arrays of one less.

Rows are cut by the number of their elements.  That number is computed at every
depth at which there are arrays (`Shape.Strided`), and where it is too large there is
no initializer, be the array as empty as it may.
-/

namespace NeuralC

namespace C

/-! ## Nested lists in braces -/

inductive BraceTree where
  | leaf (word : String)
  | node (items : List BraceTree)

namespace BraceTree

mutual

/-- The words of a nested list, in order. -/
def leaves : BraceTree → List String
  | leaf word => [word]
  | node items => leavesOfAll items

def leavesOfAll : List BraceTree → List String
  | [] => []
  | t :: ts => t.leaves ++ leavesOfAll ts

end

/-- At each depth there are as many branches as the shape says. -/
def HasShape : Shape → BraceTree → Prop
  | [], leaf _ => True
  | d :: inner, node items => items.length = d ∧ ∀ t ∈ items, t.HasShape inner
  | _, _ => False

end BraceTree

inductive BraceToken where
  | opening
  | closing
  | comma
  | blank
  | word (chars : List Char)
deriving DecidableEq

/-- The characters of a word. -/
def isItemChar (c : Char) : Bool :=
  !(c == '\x7b' || c == '\x7d' || c == ',' || c.isWhitespace)

/-- The tokens of a text; characters of words that follow one another are one token. -/
def braceTokens : List Char → List BraceToken
  | [] => []
  | c :: cs =>
    if c = '\x7b' then .opening :: braceTokens cs
    else if c = '\x7d' then .closing :: braceTokens cs
    else if c = ',' then .comma :: braceTokens cs
    else if c.isWhitespace then .blank :: braceTokens cs
    else match braceTokens cs with
      | .word w :: ts => .word (c :: w) :: ts
      | ts => .word [c] :: ts

/-- The tokens of a text without its white space. -/
def visible (cs : List Char) : List BraceToken := (braceTokens cs).filter (· ≠ .blank)

/-- The tree of some tokens.  The stack has the items in front of the place that is read, for each
brace that is open, the last of them first; `item?` is the item that was just read. -/
def assemble : List BraceToken → List (List BraceTree) → Option BraceTree → Option BraceTree
  | [], [], item? => item?
  | .opening :: ts, stack, none => assemble ts ([] :: stack) none
  | .word w :: ts, stack, none => assemble ts stack (some (.leaf (String.ofList w)))
  | .comma :: ts, items :: stack, some item => assemble ts ((item :: items) :: stack) none
  | .closing :: ts, [] :: stack, none => assemble ts stack (some (.node []))
  | .closing :: ts, items :: stack, some item =>
    assemble ts stack (some (.node (item :: items).reverse))
  | _, _, _ => none

/-- The nested list of a text. -/
def braces? (text : String) : Option BraceTree := assemble (visible text.toList) [] none

/-! ## Tokens -/

/-- A word of a nested list. -/
def IsItem (cs : List Char) : Prop := cs ≠ [] ∧ ∀ c ∈ cs, isItemChar c = true

/-- The text does not go on with a word. -/
def Breaks (cs : List Char) : Prop := ∀ c ∈ cs.head?, isItemChar c = false

def AllBlank (cs : List Char) : Prop := ∀ c ∈ cs, c.isWhitespace = true

/-- A character that is no part of an item ends the item before it. -/
theorem breaks_cons {c : Char} {cs : List Char} (hc : isItemChar c = false) : Breaks (c :: cs) := by
  simpa [Breaks] using hc

/-- Blanks may stand before what ends an item. -/
theorem breaks_blanks {blanks cs : List Char} (hblanks : AllBlank blanks) (hcs : Breaks cs) :
    Breaks (blanks ++ cs) := by
  cases blanks with
  | nil => exact hcs
  | cons c blanks =>
      have hc : c.isWhitespace = true := hblanks c List.mem_cons_self
      exact breaks_cons (by simp [isItemChar, hc])

theorem braceTokens_of_isItemChar {c : Char} (hc : isItemChar c = true) (cs : List Char) :
    braceTokens (c :: cs) = match braceTokens cs with
      | .word w :: ts => .word (c :: w) :: ts
      | ts => .word [c] :: ts := by
  simp only [isItemChar, Bool.not_eq_true', Bool.or_eq_false_iff, beq_eq_false_iff_ne] at hc
  obtain ⟨⟨⟨hopening, hclosing⟩, hcomma⟩, hblank⟩ := hc
  rw [braceTokens, if_neg hopening, if_neg hclosing, if_neg hcomma, if_neg (by simp [hblank])]

/-- Without a word in front there is no token of a word. -/
theorem braceTokens_of_breaks {cs : List Char} (hcs : Breaks cs) (w : List Char)
    (ts : List BraceToken) : braceTokens cs ≠ .word w :: ts := by
  cases cs with
  | nil => simp [braceTokens]
  | cons c cs =>
      have hc : isItemChar c = false := hcs c rfl
      simp only [isItemChar, Bool.not_eq_false', Bool.or_eq_true, beq_iff_eq] at hc
      rw [braceTokens]
      split_ifs <;> simp_all

/-- An item is one token. -/
theorem braceTokens_append {w rest : List Char} (hw : IsItem w) (hrest : Breaks rest) :
    braceTokens (w ++ rest) = .word w :: braceTokens rest := by
  obtain ⟨hne, hall⟩ := hw
  induction w with
  | nil => exact absurd rfl hne
  | cons c w ih =>
      have hc : isItemChar c = true := hall c List.mem_cons_self
      rw [List.cons_append, braceTokens_of_isItemChar hc]
      cases w with
      | nil =>
          have hno := braceTokens_of_breaks hrest
          rw [List.nil_append]
          split
          · next w ts h => exact absurd h (hno w ts)
          · rfl
      | cons d w =>
          rw [ih (by simp) fun e he => hall e (List.mem_cons_of_mem c he)]

/-- An item is one of the visible tokens. -/
theorem visible_append {w rest : List Char} (hw : IsItem w) (hrest : Breaks rest) :
    visible (w ++ rest) = .word w :: visible rest := by
  simp [visible, braceTokens_append hw hrest]

@[simp] theorem visible_opening (cs : List Char) :
    visible ('\x7b' :: cs) = .opening :: visible cs := by
  simp [visible, braceTokens]

@[simp] theorem visible_closing (cs : List Char) :
    visible ('\x7d' :: cs) = .closing :: visible cs := by
  simp [visible, braceTokens]

@[simp] theorem visible_comma (cs : List Char) : visible (',' :: cs) = .comma :: visible cs := by
  simp [visible, braceTokens]

/-- White space in front of a text is left out. -/
theorem visible_blanks {blanks : List Char} (hblanks : AllBlank blanks) (cs : List Char) :
    visible (blanks ++ cs) = visible cs := by
  induction blanks with
  | nil => rfl
  | cons c blanks ih =>
      have hc : c.isWhitespace = true := hblanks c List.mem_cons_self
      have hne : c ≠ '\x7b' ∧ c ≠ '\x7d' ∧ c ≠ ',' := by
        refine ⟨?_, ?_, ?_⟩ <;> rintro rfl <;> contradiction
      have hrest := ih fun d hd => hblanks d (List.mem_cons_of_mem c hd)
      simpa [visible, braceTokens, hne, hc] using hrest

/-! ## Texts that are read as trees -/

/-- The reader comes to the tree at the end of the text, unless the text goes on with a word. -/
def Reads (text : List Char) (t : BraceTree) : Prop :=
  ∀ rest stack, Breaks rest →
    assemble (visible (text ++ rest)) stack none = assemble (visible rest) stack (some t)

/-- Up to the closing brace, the text is read as the last items of that brace. -/
def Fills (text : List Char) (ts : List BraceTree) : Prop :=
  ∀ blanks rest items stack, AllBlank blanks → ts ≠ [] ∨ items = [] →
    assemble (visible (text ++ (blanks ++ '\x7d' :: rest))) (items :: stack) none =
      assemble (visible rest) stack (some (.node (items.reverse ++ ts)))

/-- An item is read as a leaf. -/
theorem reads_leaf {word : String} (hword : IsItem word.toList) :
    Reads word.toList (.leaf word) := by
  intro rest stack hrest
  rw [visible_append hword hrest, assemble, String.ofList_toList]

theorem fills_nil : Fills [] [] := by
  intro blanks rest items stack hblanks hitems
  have hnil : items = [] := hitems.resolve_left fun h => h rfl
  rw [hnil, List.nil_append, visible_blanks hblanks, visible_closing, assemble]
  rfl

/-- The last item stands in front of the closing brace. -/
theorem fills_last {before text behind : List Char} {t : BraceTree} (hbefore : AllBlank before)
    (hbehind : AllBlank behind) (ht : Reads text t) : Fills (before ++ text ++ behind) [t] := by
  intro blanks rest items stack hblanks _
  have hbreak : Breaks (behind ++ (blanks ++ '\x7d' :: rest)) :=
    breaks_blanks hbehind (breaks_blanks hblanks (breaks_cons (by decide)))
  rw [List.append_assoc, List.append_assoc, visible_blanks hbefore, ht _ _ hbreak,
    visible_blanks hbehind, visible_blanks hblanks, visible_closing]
  cases items <;> simp [assemble]

/-- Every other item stands in front of a comma. -/
theorem fills_more {before text more : List Char} {t : BraceTree} {ts : List BraceTree}
    (hbefore : AllBlank before) (ht : Reads text t) (hne : ts ≠ []) (hmore : Fills more ts) :
    Fills (before ++ text ++ ',' :: more) (t :: ts) := by
  intro blanks rest items stack hblanks _
  rw [List.append_assoc, List.append_assoc, visible_blanks hbefore, List.cons_append,
    ht _ _ (breaks_cons (by decide)), visible_comma, assemble, hmore _ _ _ _ hblanks (.inl hne)]
  simp

/-- White space in front of the first item does not count. -/
theorem Fills.blanks {before text : List Char} {ts : List BraceTree} (hbefore : AllBlank before)
    (hts : Fills text ts) : Fills (before ++ text) ts := by
  intro blanks rest items stack hblanks hitems
  rw [List.append_assoc, visible_blanks hbefore, hts _ _ _ _ hblanks hitems]

/-- What fills two braces is read, with them, as a list. -/
theorem Fills.reads {text blanks : List Char} {ts : List BraceTree} (hblanks : AllBlank blanks)
    (hts : Fills text ts) : Reads ('\x7b' :: (text ++ (blanks ++ ['\x7d']))) (.node ts) := by
  intro rest stack _
  have hfill := hts blanks rest [] stack hblanks (.inr rfl)
  simpa [assemble] using hfill

/-! ## Rows -/

/-- Words between commas. -/
theorem fills_row {literals : List String} (hwords : ∀ l ∈ literals, IsItem l.toList) :
    Fills (", ".intercalate literals).toList (literals.map .leaf) := by
  have hnone : AllBlank [] := by simp [AllBlank]
  have hspace : AllBlank [' '] := by simp [AllBlank]
  induction literals with
  | nil => exact fills_nil
  | cons l literals ih =>
      have hl := reads_leaf (hwords l List.mem_cons_self)
      have hrest := ih fun m hm => hwords m (List.mem_cons_of_mem l hm)
      cases literals with
      | nil =>
          rw [String.intercalate_singleton]
          simpa using fills_last hnone hnone hl
      | cons m literals =>
          have hmore := fills_more hnone hl (by simp) (hrest.blanks hspace)
          rw [String.intercalate_cons_cons]
          simpa using hmore

/-- Items one to a line. -/
theorem fills_stacked {indentation : String} {ts : List BraceTree} {items : List String}
    (hindentation : AllBlank indentation.toList)
    (hitems : List.Forall₂ (fun t item => Reads item.toList t) ts items) :
    Fills (stacked indentation items).toList ts := by
  have hline : AllBlank ['\n'] := by simp [AllBlank]
  induction hitems with
  | nil => exact fills_nil
  | @cons t item ts items ht hitems ih =>
      cases hitems with
      | nil => simpa [stacked] using fills_last hindentation hline ht
      | cons _ _ =>
          have hmore := fills_more hindentation ht (by simp) (ih.blanks hline)
          simpa [stacked] using hmore

/-! ## Nested rows -/

/-- The text is read as a nested list of the shape that has the literals for its leaves. -/
def Written (shape : Shape) (literals : List String) (text : String) : Prop :=
  ∃ t : BraceTree, Reads text.toList t ∧ t.HasShape shape ∧ t.leaves = literals

theorem leavesOfAll_map_leaf (literals : List String) :
    BraceTree.leavesOfAll (literals.map .leaf) = literals := by
  induction literals with
  | nil => rfl
  | cons l literals ih => simp [BraceTree.leavesOfAll, BraceTree.leaves, ih]

/-- One row of literals is written in braces. -/
theorem written_row {literals : List String} (hwords : ∀ l ∈ literals, IsItem l.toList) :
    Written [literals.length] literals ("\x7b" ++ ", ".intercalate literals ++ "\x7d") := by
  have hnone : AllBlank [] := by simp [AllBlank]
  refine ⟨.node (literals.map .leaf), ?_, ?_, leavesOfAll_map_leaf literals⟩
  · simpa using (fills_row hwords).reads hnone
  · simp [BraceTree.HasShape]

/-- The trees of some texts, side by side. -/
theorem exists_trees {inner : Shape} {rows : List (List String)} {texts : List String}
    (hrows : List.Forall₂ (Written inner) rows texts) :
    ∃ ts : List BraceTree, List.Forall₂ (fun t text => Reads text.toList t) ts texts ∧
      BraceTree.HasShape (rows.length :: inner) (.node ts) ∧
      BraceTree.leavesOfAll ts = rows.flatten := by
  induction hrows with
  | nil => exact ⟨[], .nil, by simp [BraceTree.HasShape], rfl⟩
  | @cons row text rows texts hrow _ ih =>
      obtain ⟨t, ht, hshape, hleaves⟩ := hrow
      obtain ⟨ts, hts, ⟨hlen, hshapes⟩, hall⟩ := ih
      refine ⟨t :: ts, .cons ht hts, ?_, ?_⟩
      · simpa [BraceTree.HasShape, hlen, hshape] using hshapes
      · simp [BraceTree.leavesOfAll, hleaves, hall]

/-- Rows that are written can be stacked into an array of one more dimension. -/
theorem written_stacked {inner : Shape} {rows : List (List String)} {texts : List String}
    {indentation margin : String} (hindentation : AllBlank indentation.toList)
    (hmargin : AllBlank margin.toList) (hrows : List.Forall₂ (Written inner) rows texts) :
    Written (rows.length :: inner) rows.flatten
      ("\x7b\n" ++ stacked indentation texts ++ margin ++ "\x7d") := by
  have hline : AllBlank ['\n'] := by simp [AllBlank]
  obtain ⟨ts, hts, hshape, hleaves⟩ := exists_trees hrows
  refine ⟨.node ts, ?_, hshape, hleaves⟩
  simpa using ((fills_stacked hindentation hts).blanks hline).reads hmargin

/-- A margin is blank. -/
theorem allBlank_margin (n : Nat) : AllBlank (String.join (List.replicate n "  ")).toList := by
  simp [AllBlank]

/-! ## Slices -/

section Slices

variable {α : Type} {xs : List α} {outer stride i : Nat}

/-- The part of a list at one place of the first dimension. -/
def rowAt (xs : List α) (stride i : Nat) : List α := (xs.take ((i + 1) * stride)).drop (i * stride)

/-- A slice of the right stride is a row, and is never out of range. -/
theorem slice_eq_rowAt (hsize : xs.length = outer * stride) (hi : i < outer) :
    slice xs (i * stride) ((i + 1) * stride) = .ok (rowAt xs stride i) := by
  have hstart : i * stride ≤ (i + 1) * stride := Nat.mul_le_mul_right stride (by omega)
  have hstop : (i + 1) * stride ≤ xs.length := hsize ▸ Nat.mul_le_mul_right stride hi
  exact if_pos ⟨hstart, hstop⟩

theorem length_rowAt (hsize : xs.length = outer * stride) (hi : i < outer) :
    (rowAt xs stride i).length = stride := by
  have hstop : (i + 1) * stride ≤ xs.length := hsize ▸ Nat.mul_le_mul_right stride hi
  rw [Nat.succ_mul] at hstop
  simp only [rowAt, List.length_drop, List.length_take, Nat.succ_mul]
  omega

theorem mem_of_mem_rowAt {x : α} (hx : x ∈ rowAt xs stride i) : x ∈ xs :=
  List.mem_of_mem_take (List.mem_of_mem_drop hx)

/-- One behind the other, the rows are the list. -/
theorem flatten_rowAt (xs : List α) (outer stride : Nat) :
    ((List.range outer).map (rowAt xs stride)).flatten = xs.take (outer * stride) := by
  induction outer with
  | zero => simp
  | succ outer ih =>
      have hle : outer * stride ≤ (outer + 1) * stride := Nat.mul_le_mul_right stride (by omega)
      have hfront : xs.take (outer * stride) =
          (xs.take ((outer + 1) * stride)).take (outer * stride) := by
        rw [List.take_take, Nat.min_eq_left hle]
      rw [List.range_succ, List.map_append, List.flatten_append, ih, hfront]
      simp [rowAt]

end Slices

end C

/-- At every depth at which the array has rows, the elements of a row can be counted. -/
def Shape.Strided : Shape → Prop
  | [] | [_] => True
  | outer :: next :: inner =>
    Shape.Counted (next :: inner) ∧ (outer = 0 ∨ Shape.Strided (next :: inner))

instance instDecidableStrided : (shape : Shape) → Decidable shape.Strided
  | [] | [_] => .isTrue trivial
  | outer :: next :: inner =>
    have := instDecidableStrided (next :: inner)
    inferInstanceAs (Decidable (Shape.Counted (next :: inner) ∧
      (outer = 0 ∨ Shape.Strided (next :: inner))))

/-- Where every run of dimensions can be multiplied, so can those of the rows. -/
theorem Shape.Bounded.strided {shape : Shape} (h : shape.Bounded) : shape.Strided := by
  induction shape with
  | nil => exact trivial
  | cons outer inner ih =>
      cases inner with
      | nil => exact trivial
      | cons next inner =>
          have hrows : Shape.Bounded (next :: inner) :=
            h.of_isInfix (List.suffix_cons outer _).isInfix
          exact ⟨hrows.counted, .inr (ih hrows)⟩

namespace C

/-- The initializer of an array is written for every shape but the empty one, if the rows can be
cut: along the first dimension stand the initializers of the rows. -/
theorem exists_initializer {shape : Shape} (depth : Nat) {literals : List String}
    (hrank : shape ≠ []) (hstrided : shape.Strided) (hlen : literals.length = shape.size)
    (hwords : ∀ l ∈ literals, IsItem l.toList) :
    ∃ text, initializer depth shape literals = .ok text ∧ Written shape literals text := by
  induction shape generalizing depth literals with
  | nil => exact absurd rfl hrank
  | cons outer inner ih =>
      cases inner with
      | nil =>
          have houter : outer = literals.length := by simpa [Shape.size] using hlen.symm
          rw [houter]
          exact ⟨_, rfl, written_row hwords⟩
      | cons next inner =>
          have hsize : literals.length = outer * Shape.size (next :: inner) := hlen
          generalize hstride : Shape.size (next :: inner) = stride at hsize
          have hrow : ∀ i ∈ List.range outer, ∃ text,
              (do initializer (depth + 1) (next :: inner)
                    (← slice literals (i * stride) ((i + 1) * stride))) = .ok text ∧
                Written (next :: inner) (rowAt literals stride i) text := by
            intro i hi
            have hlt : i < outer := List.mem_range.mp hi
            have hlength := (length_rowAt hsize hlt).trans hstride.symm
            have hinner : Shape.Strided (next :: inner) :=
              hstrided.2.resolve_left (Nat.ne_zero_of_lt hlt)
            rw [slice_eq_rowAt hsize hlt]
            exact ih (depth + 1) (by simp) hinner hlength fun l hl =>
              hwords l (mem_of_mem_rowAt hl)
          obtain ⟨texts, htexts, hwritten⟩ := exists_mapM_forall₂ hrow
          have hflat : ((List.range outer).map (rowAt literals stride)).flatten = literals := by
            rw [flatten_rowAt, ← hsize, List.take_length]
          have hwhole := written_stacked (allBlank_margin (depth + 1)) (allBlank_margin depth)
            (List.forall₂_map_left_iff.mpr hwritten)
          rw [hflat, List.length_map, List.length_range] at hwhole
          refine ⟨_, ?_, hwhole⟩
          rw [initializer, Shape.count_of_counted hstrided.1, hstride]
          exact bind_eq_ok.mpr ⟨stride, rfl, bind_eq_ok.mpr ⟨texts, htexts, rfl⟩⟩

/-- Where rows cannot be cut, none is: the first row of each depth leads to the dimensions that
cannot be multiplied. -/
theorem initializer_overflow {shape : Shape} (depth : Nat) {literals : List String}
    (hstrided : ¬shape.Strided) (hlen : literals.length = shape.size) :
    initializer depth shape literals = .error .overflow := by
  induction shape generalizing depth literals with
  | nil => exact absurd trivial hstrided
  | cons outer inner ih =>
      cases inner with
      | nil => exact absurd trivial hstrided
      | cons next inner =>
          rw [initializer]
          by_cases hcounted : Shape.Counted (next :: inner)
          · have hrows : outer ≠ 0 ∧ ¬Shape.Strided (next :: inner) :=
              not_or.mp fun hrest => hstrided ⟨hcounted, hrest⟩
            have hsize : literals.length = outer * Shape.size (next :: inner) := hlen
            have hpos : 0 < outer := Nat.pos_of_ne_zero hrows.1
            have hfirst := ih (depth + 1) hrows.2 (length_rowAt hsize hpos)
            obtain ⟨rest, hrest⟩ : ∃ rest, List.range outer = 0 :: rest := by
              obtain ⟨rows, rfl⟩ := Nat.exists_eq_succ_of_ne_zero hrows.1
              exact ⟨_, List.range_succ_eq_map⟩
            rw [Shape.count_of_counted hcounted]
            simp only [bind, Except.bind, hrest, List.mapM_cons, slice_eq_rowAt hsize hpos, hfirst]
          · rw [Shape.count_of_not_counted hcounted]
            rfl

/-! ## Literals -/

theorem isItemChar_of_isDigit {c : Char} (hc : c.isDigit = true) : isItemChar c = true := by
  have hne : c ≠ '\x7b' ∧ c ≠ '\x7d' ∧ c ≠ ',' := by
    refine ⟨?_, ?_, ?_⟩ <;> rintro rfl <;> contradiction
  have hblank : c.isWhitespace = false := by
    by_contra h
    simp only [Char.isWhitespace, Bool.not_eq_false, Bool.or_eq_true, decide_eq_true_eq] at h
    obtain ((rfl | rfl) | rfl) | rfl := h <;> contradiction
  simp [isItemChar, hne, hblank]

theorem isItemChar_digitChar {d : Nat} (hd : d < 16) : isItemChar d.digitChar = true := by
  revert d
  decide

theorem IsItem.append {cs ds : List Char} (hcs : ∀ c ∈ cs, isItemChar c = true)
    (hds : IsItem ds) : IsItem (cs ++ ds) := by
  refine ⟨by simp [hds.1], fun c hc => ?_⟩
  exact (List.mem_append.mp hc).elim (hcs c) (hds.2 c)

/-- A numeral is an item. -/
theorem isItem_toString (i : Int) : IsItem (toString i).toList := by
  have hdigits (n : Nat) : IsItem (Nat.toDigits 10 n) := by
    refine ⟨Nat.toDigits_ne_nil, fun c hc => ?_⟩
    exact isItemChar_of_isDigit (Nat.isDigit_of_mem_toDigits (by decide) (by decide) hc)
  have hminus : ∀ c ∈ ['-'], isItemChar c = true := by simp [isItemChar]
  by_cases hi : 0 ≤ i
  · rw [toList_toString_of_nonneg hi]
    exact hdigits _
  · rw [toList_toString_of_neg (by omega)]
    exact .append hminus (hdigits _)

theorem isItem_signed (i : Int) : IsItem (signed i).toList := by
  have hplus : ∀ c ∈ ['+'], isItemChar c = true := by simp [isItemChar]
  unfold signed
  split
  · exact isItem_toString i
  · have htext : (s!"+{i}").toList = ['+'] ++ (toString i).toList := by simp [toString]
    rw [htext]
    exact .append hplus (isItem_toString i)

/-- A hexadecimal float is an item. -/
theorem Normalized.isItem_render (n : Normalized) : IsItem n.render.toList := by
  have hdigits : ∀ c ∈ (fractionDigits n.fraction).map Nat.digitChar, isItemChar c = true := by
    simp only [List.mem_map]
    rintro c ⟨d, hd, rfl⟩
    exact isItemChar_digitChar (lt_of_mem_fractionDigits hd)
  have hsigned := isItem_signed n.exponent
  have hlead : ∀ c ∈ ['0', 'x', '1'], isItemChar c = true := by simp [isItemChar]
  have hp : ∀ c ∈ ['p'], isItemChar c = true := by simp [isItemChar]
  rw [toList_render]
  refine .append hlead (.append ?_ (.append hp hsigned))
  split
  · simp
  · simpa [isItemChar] using hdigits

/-- The literal of a number, finite or not, is one word. -/
theorem FloatFields.isItem_render (f : FloatFields) : IsItem f.render.toList := by
  have hsign : ∀ c ∈ (if f.negative then "-" else "").toList, isItemChar c = true := by
    split <;> simp [isItemChar]
  have hinfinity : IsItem "INFINITY".toList := by simp [IsItem, isItemChar]
  have hnan : IsItem "NAN".toList := by simp [IsItem, isItemChar]
  have hzero : IsItem "0x0p+0".toList := by simp [IsItem, isItemChar]
  unfold render
  dsimp only
  generalize (if f.negative then "-" else "") = sign at hsign ⊢
  split
  · split
    · rw [String.toList_append]
      exact .append hsign hinfinity
    · exact hnan
  · split
    · rw [String.toList_append]
      exact .append hsign hzero
    · rw [String.toList_append]
      exact .append hsign f.normalize.isItem_render

/-- Every element is written as one item. -/
theorem isItem_literal (e : Element) : IsItem (literal e).toList := by
  cases e with
  | float value => exact FloatFields.isItem_render _
  | integer value => exact isItem_toString value

theorem isItem_of_mem_literals {d : TensorData} :
    ∀ l ∈ d.elements.map literal, IsItem l.toList := by
  simp only [List.mem_map]
  rintro l ⟨e, _, rfl⟩
  exact isItem_literal e

/-! ## Arrays -/

/-- Written text is read back as a tree of its shape and literals. -/
theorem Written.exists_tree {shape : Shape} {literals : List String} {text : String}
    (htext : Written shape literals text) :
    ∃ tree, braces? text = some tree ∧ tree.HasShape shape ∧ tree.leaves = literals := by
  obtain ⟨t, ht, hshape, hleaves⟩ := htext
  have hend : Breaks [] := by simp [Breaks]
  have hread := ht [] [] hend
  rw [List.append_nil] at hread
  exact ⟨t, hread, hshape, hleaves⟩

/-- **Initializers read back.**  A tensor of at least one dimension, with as many elements as its
shape says, has an initializer, if the elements of its rows can be counted at every depth that
has any.  Read as a nested list it branches as the shape does, and its leaves are the literals of
the elements in row-major order.  Otherwise writing it overflows, also where it has no elements. -/
theorem initializer_reads_back (t : Tensor) (hrank : t.shape ≠ [])
    (hlen : t.data.length = t.shape.size) :
    (t.shape.Strided → ∃ text, initializer 0 t.shape (t.data.elements.map literal) = .ok text ∧
      ∃ tree, braces? text = some tree ∧ tree.HasShape t.shape ∧
        tree.leaves = t.data.elements.map literal) ∧
    (¬t.shape.Strided →
      initializer 0 t.shape (t.data.elements.map literal) = .error .overflow) := by
  have hlength : (t.data.elements.map literal).length = t.shape.size := by simpa using hlen
  refine ⟨fun hstrided => ?_, fun hstrided => initializer_overflow 0 hstrided hlength⟩
  obtain ⟨text, htext, hwritten⟩ :=
    exists_initializer 0 hrank hstrided hlength isItem_of_mem_literals
  exact ⟨text, htext, hwritten.exists_tree⟩

def sixElements : Tensor := ⟨[3, 1, 2], .i16 [1, -2, 300, -400, 0, 32767]⟩

/-- An array without elements, where three rows are still there. -/
def emptyRows : Tensor := ⟨[3, 0, 2], .f32 []⟩

/-- Six integers in three dimensions are read back, and so is an array without elements. -/
theorem initializer_reads_back_six :
    (∃ text, initializer 0 sixElements.shape (sixElements.data.elements.map literal) = .ok text ∧
      ∃ tree, braces? text = some tree ∧ tree.HasShape [3, 1, 2] ∧
        tree.leaves = ["1", "-2", "300", "-400", "0", "32767"]) ∧
    ∃ text, initializer 0 emptyRows.shape (emptyRows.data.elements.map literal) = .ok text ∧
      ∃ tree, braces? text = some tree ∧ tree.HasShape [3, 0, 2] ∧ tree.leaves = [] := by
  have hsix : sixElements.data.elements.map literal = ["1", "-2", "300", "-400", "0", "32767"] := by
    decide +kernel
  have hread := (initializer_reads_back sixElements (by decide) (by decide)).1 (by decide)
  constructor
  · rw [hsix] at hread ⊢
    exact hread
  · exact (initializer_reads_back emptyRows (by decide) (by decide)).1 (by decide)

/-- An array without rows, whose rows would have 2^64 elements. -/
def noRows : Tensor := ⟨[0, 4294967296, 4294967296], .f32 []⟩

/-- The array has as many elements as its shape says, which is none, and no initializer. -/
theorem initializer_noRows :
    noRows.data.length = noRows.shape.size ∧
      initializer 0 noRows.shape (noRows.data.elements.map literal) = .error .overflow :=
  ⟨by decide, by decide⟩

end C

end NeuralC
