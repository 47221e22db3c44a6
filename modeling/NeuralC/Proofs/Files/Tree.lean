import NeuralC.Files.Tree
import NeuralC.Proofs.Files.Path
import NeuralC.Proofs.Work

/-!
# NeuralC.Proofs.Files.Tree

Looking up and making directories.  A path leads through existing directories,
so what it leads to stays the same while directories stay (`follow_mono`).
Below a place whose entries all stand in directories (`Rooted`), names either
lead down to the end or break off at a directory that is not there; then
`makeDirectories` makes the missing ones and changes nothing else (`Grown`).
-/

namespace NeuralC.Tree

/-! ## Entries -/

/-- Putting an entry at a place changes that place alone. -/
theorem find?_put (place p : Place) (e : TreeEntry) (entries : List (Place × TreeEntry)) :
    ((put place e entries).find? (·.1 = p)).map (·.2) =
      if p = place then some e else (entries.find? (·.1 = p)).map (·.2) := by
  induction entries with
  | nil => by_cases h : p = place <;> simp [put, h, eq_comm]
  | cons entry rest ih =>
      obtain ⟨other, old⟩ := entry
      rw [put]
      by_cases hother : other = place
      · by_cases hp : p = place
        · simp [hother, hp]
        · simp [hother, hp, Ne.symm hp]
      · rw [if_neg hother]
        by_cases hp : other = p
        · simp [hp, hp ▸ hother]
        · simpa [hp] using ih

/-- An entry that was set is found. -/
theorem get?_set_self {t : Tree} {place : Place} (hplace : place ≠ []) (e : TreeEntry) :
    (t.set place e).get? place = some e := by
  rw [get?, if_neg hplace, set, find?_put, if_pos rfl]

/-- Setting an entry leaves the other places as they are. -/
theorem get?_set_of_ne {t : Tree} {place p : Place} (hp : p ≠ place) (e : TreeEntry) :
    (t.set place e).get? p = t.get? p := by
  rw [get?, get?, set, find?_put, if_neg hp]

/-! ## Following names -/

/-- A list of names is followed part by part. -/
theorem follow_append (t : Tree) (start : Place) (front back : List String) :
    t.follow start (front ++ back) = t.follow start front >>= fun place => t.follow place back := by
  fun_induction follow t start front with
  | case1 start => rfl
  | case2 start name names hnone => rw [List.cons_append, follow, hnone]; rfl
  | case3 start name names bytes hfile => rw [List.cons_append, follow, hfile]; rfl
  | case4 start names hdir ih =>
      rw [List.cons_append, follow, hdir]
      exact ih
  | case5 start names hdir hne ih =>
      rw [List.cons_append, follow, hdir]
      exact ih
  | case6 start name names hdir hdot hdots hlong =>
      rw [List.cons_append, follow, hdir]
      simp [hdot, hdots, hlong]
      rfl
  | case7 start name names hdir hdot hdots hlong ih =>
      rw [List.cons_append, follow, hdir]
      simpa [hdot, hdots, hlong] using ih

/-- Names lead to the same place while directories stay. -/
theorem follow_mono {t t' : Tree} {start place : Place} {names : List String}
    (hkeep : ∀ p, t.get? p = some .directory → t'.get? p = some .directory)
    (h : t.follow start names = .ok place) : t'.follow start names = .ok place := by
  fun_induction follow t start names with
  | case1 start => exact h
  | case2 start name names hnone => contradiction
  | case3 start name names bytes hfile => contradiction
  | case4 start names hdir ih =>
      rw [follow, hkeep start hdir]
      exact ih h
  | case5 start names hdir hne ih =>
      rw [follow, hkeep start hdir]
      exact ih h
  | case6 start name names hdir hdot hdots hlong => contradiction
  | case7 start name names hdir hdot hdots hlong ih =>
      rw [follow, hkeep start hdir]
      simpa [hdot, hdots, hlong] using ih h

/-- Dots lead nowhere else. -/
theorem follow_dots {t : Tree} {start place : Place} {dots : List String}
    (hdots : ∀ name ∈ dots, name = ".") (h : t.follow start dots = .ok place) : place = start := by
  induction dots with
  | nil =>
      injection h with h
      exact h.symm
  | cons name dots ih =>
      obtain ⟨rfl, hrest⟩ := List.forall_mem_cons.mp hdots
      rw [follow] at h
      split at h
      · contradiction
      · contradiction
      · exact ih hrest h

/-- A name that leads down by one. -/
structure IsName (name : String) : Prop where
  ne_empty : name ≠ ""
  ne_dot : name ≠ "."
  ne_dots : name ≠ ".."
  short : name.utf8ByteSize ≤ nameLimit

theorem IsName.isVoid {name : String} (h : IsName name) : Path.isVoid name = false := by
  simp [Path.isVoid, h.ne_empty, h.ne_dot]

/-- In a directory every name can be followed. -/
theorem follow_name {t : Tree} {start : Place} {name : String} (hname : IsName name)
    (hdir : t.get? start = some .directory) : t.follow start [name] = .ok (start ++ [name]) := by
  simp [follow, hdir, hname.ne_dot, hname.ne_dots, Nat.not_lt.mpr hname.short]

/-! ## Below a place -/

/-- The place is a directory, and everything below it stands in directories. -/
structure Rooted (t : Tree) (place : Place) : Prop where
  directory : t.get? place = some .directory
  above : ∀ q name, (t.get? (place ++ (q ++ [name]))).isSome = true →
    t.get? (place ++ q) = some .directory

/-- `t'` is `t` with an entry at a place below another, and directories on the way to it. -/
structure Grown (t t' : Tree) (place r : Place) (e : TreeEntry) : Prop where
  entry : t'.get? (place ++ r) = some e
  directory : ∀ q name, q ++ [name] <+: r → t'.get? (place ++ q) = some .directory
  frame : ∀ p, (∀ q, q <+: r → p ≠ place ++ q) → t'.get? p = t.get? p

namespace Rooted

variable {t : Tree} {place : Place}

/-- Above an entry there are directories. -/
theorem directory_of_isPrefix {q r : Place} {name : String} {e : TreeEntry} (ht : t.Rooted place)
    (he : t.get? (place ++ r) = some e) (hq : q ++ [name] <+: r) :
    t.get? (place ++ q) = some .directory := by
  induction r using List.reverseRecOn generalizing e with
  | nil => simp at hq
  | append_singleton r last ih =>
      have hdir := ht.above r last (by rw [he]; rfl)
      rcases List.prefix_concat_iff.mp hq with heq | hbegins
      · obtain ⟨rfl, -⟩ := List.concat_inj.mp (by simpa using heq)
        exact hdir
      · exact ih hdir hbegins

/-- Names lead to an entry that is there. -/
theorem follow_eq_ok {r : Place} {e : TreeEntry} (ht : t.Rooted place)
    (hr : ∀ name ∈ r, IsName name) (he : t.get? (place ++ r) = some e) :
    t.follow place r = .ok (place ++ r) := by
  induction r using List.reverseRecOn generalizing e with
  | nil => simp [follow]
  | append_singleton r name ih =>
      obtain ⟨hr, hname⟩ := List.forall_mem_append.mp hr
      have hdir := ht.above r name (by rw [he]; rfl)
      rw [follow_append, ih hr hdir, ← List.append_assoc]
      exact follow_name (hname name List.mem_cons_self) hdir

/-- A name can be followed out of a directory that is there. -/
theorem follow_concat {r : Place} {name : String} (ht : t.Rooted place)
    (hr : ∀ n ∈ r ++ [name], IsName n) (hdir : t.get? (place ++ r) = some .directory) :
    t.follow place (r ++ [name]) = .ok (place ++ (r ++ [name])) := by
  obtain ⟨hr, hname⟩ := List.forall_mem_append.mp hr
  rw [follow_append, ht.follow_eq_ok hr hdir, ← List.append_assoc]
  exact follow_name (hname name List.mem_cons_self) hdir

/-- Names break off at the first directory that is not there. -/
theorem follow_missing {r : Place} {name : String} (ht : t.Rooted place)
    (hr : ∀ n ∈ r ++ [name], IsName n)
    (hfree : ∀ q bytes, q <+: r → t.get? (place ++ q) ≠ some (.file bytes))
    (hnone : t.get? (place ++ r) = none) : t.follow place (r ++ [name]) = .error .notFound := by
  induction r using List.reverseRecOn generalizing name with
  | nil =>
      rw [List.append_nil, ht.directory] at hnone
      contradiction
  | append_singleton r last ih =>
      have hr' := (List.forall_mem_append.mp hr).1
      rw [follow_append]
      cases hget : t.get? (place ++ r) with
      | none =>
          have hfree' (q : Place) (bytes) (hq : q <+: r) :=
            hfree q bytes (hq.trans (List.prefix_append r [last]))
          rw [ih hr' hfree' hget]
          rfl
      | some e =>
          cases e with
          | file bytes => exact absurd hget (hfree r bytes (List.prefix_append r [last]))
          | directory =>
              rw [ht.follow_concat hr' hget]
              show t.follow (place ++ (r ++ [last])) [name] = _
              rw [follow, hnone]

/-- An entry put into a directory. -/
theorem grown_set {r : Place} {name : String} (ht : t.Rooted place)
    (hdir : t.get? (place ++ r) = some .directory) (e : TreeEntry) :
    t.Grown (t.set (place ++ (r ++ [name])) e) place (r ++ [name]) e where
  entry := get?_set_self (by simp) e
  directory := by
    intro q last hq
    rw [get?_set_of_ne]
    · rcases List.prefix_concat_iff.mp hq with heq | hbegins
      · obtain ⟨rfl, -⟩ := List.concat_inj.mp (by simpa using heq)
        exact hdir
      · exact ht.directory_of_isPrefix hdir hbegins
    · intro heq
      have hlen := hq.length_le
      rw [List.append_cancel_left heq] at hlen
      simp at hlen
  frame := fun p hp => get?_set_of_ne (hp _ List.prefix_rfl) e

theorem grown_self {r : Place} {e : TreeEntry} (ht : t.Rooted place)
    (he : t.get? (place ++ r) = some e) : t.Grown t place r e where
  entry := he
  directory := fun _ _ hq => ht.directory_of_isPrefix he hq
  frame := fun _ _ => rfl

end Rooted

namespace Grown

variable {t t' : Tree} {place r : Place} {e : TreeEntry}

/-- What stands below the place afterwards. -/
theorem get?_cases (hg : t.Grown t' place r e) (q : Place) :
    q = r ∧ t'.get? (place ++ q) = some e ∨
      (∃ name, q ++ [name] <+: r) ∧ t'.get? (place ++ q) = some .directory ∨
      t'.get? (place ++ q) = t.get? (place ++ q) := by
  by_cases hq : q <+: r
  · obtain ⟨rest, rfl⟩ := hq
    cases rest with
    | nil => exact .inl ⟨(List.append_nil q).symm, by simpa using hg.entry⟩
    | cons name rest =>
        have hname : q ++ [name] <+: q ++ name :: rest := ⟨rest, by simp⟩
        exact .inr (.inl ⟨⟨name, hname⟩, hg.directory q name hname⟩)
  · exact .inr (.inr (hg.frame _ fun p hp heq => hq (List.append_cancel_left heq ▸ hp)))

/-- Directories stay directories unless one is replaced. -/
theorem keeps_directory (hg : t.Grown t' place r e)
    (he : t.get? (place ++ r) = some .directory → e = .directory) {p : Place}
    (hp : t.get? p = some .directory) : t'.get? p = some .directory := by
  by_cases hway : ∃ q, p = place ++ q
  · obtain ⟨q, rfl⟩ := hway
    rcases hg.get?_cases q with ⟨rfl, hq⟩ | ⟨-, hq⟩ | hq
    · rw [hq, he hp]
    · exact hq
    · rw [hq, hp]
  · rw [hg.frame p fun q _ heq => hway ⟨q, heq⟩]
    exact hp

/-- What grows from a directory stays rooted in it. -/
theorem rooted (hg : t.Grown t' place r e)
    (he : t.get? (place ++ r) = some .directory → e = .directory) (ht : t.Rooted place) :
    t'.Rooted place where
  directory := hg.keeps_directory he ht.directory
  above := by
    intro q name hsome
    rcases hg.get?_cases (q ++ [name]) with ⟨rfl, -⟩ | ⟨⟨next, hnext⟩, -⟩ | hsame
    · exact hg.directory q name List.prefix_rfl
    · exact hg.directory q name ((List.prefix_append _ _).trans hnext)
    · rw [hsame] at hsome
      exact hg.keeps_directory he (ht.above q name hsome)

/-- What stands below the new entry is as before. -/
theorem frame_concat (hg : t.Grown t' place r e) {name : String} :
    t'.get? (place ++ (r ++ [name])) = t.get? (place ++ (r ++ [name])) := by
  refine hg.frame _ fun q hq heq => ?_
  have hlen := hq.length_le
  rw [← List.append_cancel_left heq, List.length_append, List.length_singleton] at hlen
  omega

/-- A tree can grow in steps. -/
theorem trans {t₁ : Tree} {name : String} {e₁ : TreeEntry} (h₁ : t.Grown t₁ place r e₁)
    (h₂ : t₁.Grown t' place (r ++ [name]) e) : t.Grown t' place (r ++ [name]) e where
  entry := h₂.entry
  directory := h₂.directory
  frame := by
    intro p hp
    rw [h₂.frame p hp, h₁.frame]
    exact fun q hq => hp q (hq.trans (List.prefix_append r [name]))

end Grown

/-! ## Paths -/

/-- A path is fit for use when it has no null character, is not empty and not too long. -/
theorem pathFault?_eq_none {path : String} : pathFault? path = none ↔
    Char.ofNat 0 ∉ path.toList ∧ path ≠ "" ∧ path.utf8ByteSize ≤ pathLimit := by
  rw [pathFault?]
  split <;> rename_i hnul
  · simp [hnul]
  · split <;> rename_i hempty
    · simp [hempty]
    · split <;> rename_i hlong
      · simp [Nat.not_le.mpr hlong]
      · simp [hnul, hempty, Nat.not_lt.mp hlong]

/-- A path that another one starts with is refused for no more than that. -/
theorem pathFault?_of_isPrefix {p q : String} (hq : q.toList <+: p.toList) (hne : q ≠ "")
    (hp : pathFault? p = none) : pathFault? q = none := by
  obtain ⟨hnul, -, hlen⟩ := pathFault?_eq_none.mp hp
  obtain ⟨rest, hrest⟩ := hq
  have hp : p = q ++ String.ofList rest := by
    apply String.toList_inj.mp
    simpa using hrest.symm
  refine pathFault?_eq_none.mpr ⟨?_, hne, ?_⟩
  · rw [← hrest] at hnul
    exact fun h => hnul (List.mem_append_left rest h)
  · rw [hp, String.utf8ByteSize_append] at hlen
    omega

theorem pathFault?_join {dir path : String} (hdir : pathFault? dir = none)
    (hnul : Char.ofNat 0 ∉ path.toList) (hlong : (Path.join dir path).utf8ByteSize ≤ pathLimit) :
    pathFault? (Path.join dir path) = none := by
  obtain ⟨hdirNul, hempty, -⟩ := pathFault?_eq_none.mp hdir
  have hjoin : Char.ofNat 0 ∉ (Path.join dir path).toList ∧ Path.join dir path ≠ "" := by
    rw [Path.join]
    split
    · next hstart =>
      refine ⟨hnul, ?_⟩
      rintro rfl
      exact hstart.elim (by simp) hempty
    · split
      · simp [hdirNul, hnul, hempty]
      · simp [hdirNul, hnul, hempty]
  exact pathFault?_eq_none.mpr ⟨hjoin.1, hjoin.2, hlong⟩

variable {t : Tree} {path : String} {place r : Place} {front : List String}

theorem locate_of_fits (hfits : pathFault? path = none) :
    t.locate path = t.follow [] (names path) := by
  rw [locate, walk, hfits]

/-- A path below a directory leads on from the directory. -/
theorem locate_below (hpieces : Path.pieces path = front ++ r) (hfits : pathFault? path = none)
    (hfront : t.follow [] (front.filter (· ≠ "")) = .ok place) (hr : ∀ n ∈ r, IsName n) :
    t.locate path = t.follow place r := by
  have hnames : names path = front.filter (· ≠ "") ++ r := by
    have hself : r.filter (· ≠ "") = r := by
      rw [List.filter_eq_self]
      intro n hn
      simpa using (hr n hn).ne_empty
    rw [names, hpieces, List.filter_append, hself]
  rw [locate_of_fits hfits, hnames, follow_append, hfront]
  rfl

/-- What a path leads to is there for a path with a slash at its end only if it is a
directory. -/
theorem locateExisting_of_locate {e : TreeEntry} (h : t.locate path = .ok place)
    (he : t.get? place = some e) (hslash : path.endsWith "/" = true → e = .directory) :
    t.locateExisting path = .ok (place, e) := by
  have hwalk : t.walk path (names path ++ if path.endsWith "/" then ["."] else []) =
      .ok place := by
    rw [locate, walk] at h
    split at h
    · contradiction
    · next hfits =>
      rw [walk, hfits, follow_append, h]
      show t.follow place _ = _
      split
      · next hend => simp [follow, he, hslash hend]
      · rfl
  simp only [locateExisting, hwalk, he]

theorem isDirectory_of_locate (h : t.locate path = .ok place)
    (hdir : t.get? place = some .directory) : t.isDirectory path = true := by
  rw [isDirectory, locateExisting_of_locate h hdir fun _ => rfl]

theorem isDirectory_of_locate_error {cause : FileCause} (h : t.locate path = .error cause) :
    t.isDirectory path = false := by
  rw [isDirectory, locateExisting]
  rw [locate, walk] at h
  rw [walk]
  split at h
  · rfl
  · rw [follow_append, h]
    rfl

/-! ## Making directories -/

theorem pure_apply {α : Type} (a : α) (t : Tree) : (pure a : StateM Tree α) t = (a, t) := rfl

theorem bind_apply {α β : Type} (x : StateM Tree α) (f : α → StateM Tree β) (t : Tree) :
    (x >>= f) t = f (x t).1 (x t).2 := rfl

/-- A directory is made, unless it is there already. -/
theorem ensureDirectory_apply (path : String) (t : Tree) :
    disk.ensureDirectory path t = match t.makeDirectory path with
      | .ok t' => (.ok (), t')
      | .error cause => if t.isDirectory path then (.ok (), t) else (.error cause, t) := by
  cases h : t.makeDirectory path with
  | ok t' => simp [Disk.ensureDirectory, disk, update, h, bind_apply, pure_apply]
  | error cause =>
      cases hdir : t.isDirectory path <;>
        simp [Disk.ensureDirectory, disk, update, h, hdir, bind_apply, pure_apply]

/-- A directory is there afterwards, below one that was there before. -/
theorem ensureDirectory_below {name : String} (ht : t.Rooted place)
    (hlocate : t.locate path = t.follow place (r ++ [name]))
    (hr : ∀ n ∈ r ++ [name], IsName n) (hdir : t.get? (place ++ r) = some .directory)
    (hfree : ∀ bytes, t.get? (place ++ (r ++ [name])) ≠ some (.file bytes)) :
    ∃ t', disk.ensureDirectory path t = (.ok (), t') ∧
      t.Grown t' place (r ++ [name]) .directory := by
  rw [ht.follow_concat hr hdir] at hlocate
  rw [ensureDirectory_apply, makeDirectory, hlocate]
  dsimp only
  cases hget : t.get? (place ++ (r ++ [name])) with
  | none => exact ⟨_, rfl, ht.grown_set hdir .directory⟩
  | some e =>
      cases e with
      | file bytes => exact absurd hget (hfree bytes)
      | directory =>
          refine ⟨t, ?_, ht.grown_self hget⟩
          simp [isDirectory_of_locate hlocate hget]

theorem makeDirectories_cons_of_ok {above : List String} {t' : Tree}
    (h : disk.ensureDirectory path t = (.ok (), t')) :
    disk.makeDirectories (path :: above) t = (.ok (), t') := by
  simp [Disk.makeDirectories, bind_apply, pure_apply, h]

/-- Where the directory above is missing, it is made first. -/
theorem makeDirectories_cons_of_notFound {above : List String} {t₁ t' : Tree}
    (h : disk.ensureDirectory path t = (.error .notFound, t))
    (habove : disk.makeDirectories above t = (.ok (), t₁))
    (h₁ : disk.ensureDirectory path t₁ = (.ok (), t')) :
    disk.makeDirectories (path :: above) t = (.ok (), t') := by
  simp [Disk.makeDirectories, bind_apply, h, habove, h₁]

/-- The first pieces of a path that is not refused spell one that is not refused. -/
theorem pathFault?_spell {reversed : List String} (hne : reversed ≠ []) (hroot : reversed ≠ [""])
    (hbegins : reversed.reverse <+: Path.pieces path) (hfits : pathFault? path = none) :
    Path.pieces (Path.spell reversed) = reversed.reverse ∧
      pathFault? (Path.spell reversed) = none := by
  have hslash : ∀ p ∈ reversed, '/' ∉ p.toList := fun p hp =>
    Path.not_mem_of_mem_pieces (hbegins.subset (List.mem_reverse.mpr hp))
  exact ⟨Path.pieces_spell hne hroot hslash,
    pathFault?_of_isPrefix (Path.spell_isPrefix hne hroot hbegins)
      (Path.spell_ne_empty hne hroot hslash) hfits⟩

/-- A directory that is there needs nothing made. -/
theorem makeDirectories_front (hne : front ≠ []) (hbegins : front <+: Path.pieces path)
    (hfits : pathFault? path = none)
    (hfront : t.follow [] (front.filter (· ≠ "")) = .ok place)
    (hdir : t.get? place = some .directory) :
    disk.makeDirectories (Path.leading front.reverse) t = (.ok (), t) := by
  have hreverse : front.reverse ≠ [] := by simpa using hne
  rcases Path.leading_cases hreverse with ⟨-, hleading⟩ | ⟨hroot, above, hleading⟩
  · rw [hleading]
    rfl
  · obtain ⟨voids, hvoids, hsplit⟩ := Path.exists_voids front.reverse
    have hcut : front = (Path.trimmed front.reverse).reverse ++ voids.reverse := by
      rw [← List.reverse_append, ← hsplit, List.reverse_reverse]
    obtain ⟨hpieces, hspelled⟩ := pathFault?_spell (Path.trimmed_ne_nil hreverse) hroot
      (List.IsPrefix.trans ⟨_, hcut.symm⟩ hbegins) hfits
    -- the pieces left out are dots, which lead nowhere else
    rw [hcut, List.filter_append, follow_append] at hfront
    obtain ⟨p, hp, hdots⟩ := bind_eq_ok.mp hfront
    obtain rfl : place = p := by
      refine follow_dots (fun name hname => ?_) hdots
      obtain ⟨hmem, hname⟩ := List.mem_filter.mp hname
      have hvoid := hvoids name (List.mem_reverse.mp hmem)
      simp only [Path.isVoid, Bool.or_eq_true, beq_iff_eq] at hvoid
      exact hvoid.resolve_left (by simpa using hname)
    have hlocate : t.locate (Path.spell (Path.trimmed front.reverse)) = .ok place :=
      locate_below (hpieces.trans (List.append_nil _).symm) hspelled hp (by simp)
    rw [hleading]
    apply makeDirectories_cons_of_ok
    rw [ensureDirectory_apply, makeDirectory, hlocate]
    simp [hdir, isDirectory_of_locate hlocate hdir]

/-- One more directory, when those above it can be made. -/
theorem makeDirectories_concat {name : String} {above : List String} (ht : t.Rooted place)
    (hpieces : Path.pieces path = front ++ (r ++ [name])) (hfits : pathFault? path = none)
    (hfront : t.follow [] (front.filter (· ≠ "")) = .ok place)
    (hr : ∀ n ∈ r ++ [name], IsName n)
    (hfree : ∀ q bytes, q <+: r ++ [name] → t.get? (place ++ q) ≠ some (.file bytes))
    (habove : ∃ t₁, disk.makeDirectories above t = (.ok (), t₁) ∧
      t.Grown t₁ place r .directory) :
    ∃ t', disk.makeDirectories (path :: above) t = (.ok (), t') ∧
      t.Grown t' place (r ++ [name]) .directory := by
  have hstep : r <+: r ++ [name] := List.prefix_append r [name]
  have hlocate := locate_below hpieces hfits hfront hr
  cases hget : t.get? (place ++ r) with
  | some e =>
      cases e with
      | file bytes => exact absurd hget (hfree r bytes hstep)
      | directory =>
          obtain ⟨t', ht', hgrown⟩ := ensureDirectory_below ht hlocate hr hget
            fun bytes => hfree _ bytes List.prefix_rfl
          exact ⟨t', makeDirectories_cons_of_ok ht', hgrown⟩
  | none =>
      -- the first attempt fails, the directories above are made, and the second succeeds
      obtain ⟨t₁, hmade, hgrown₁⟩ := habove
      have hkeep : ∀ p, t.get? p = some .directory → t₁.get? p = some .directory :=
        fun _ hp => hgrown₁.keeps_directory (fun _ => rfl) hp
      have hmissing : disk.ensureDirectory path t = (.error .notFound, t) := by
        rw [ht.follow_missing hr (fun q bytes hq => hfree q bytes (hq.trans hstep)) hget]
          at hlocate
        rw [ensureDirectory_apply, makeDirectory, hlocate]
        simp [isDirectory_of_locate_error hlocate]
      obtain ⟨t', ht', hgrown⟩ := ensureDirectory_below (hgrown₁.rooted (fun _ => rfl) ht)
        (locate_below hpieces hfits (follow_mono hkeep hfront) hr) hr hgrown₁.entry
        fun bytes => by rw [hgrown₁.frame_concat]; exact hfree _ bytes List.prefix_rfl
      exact ⟨t', makeDirectories_cons_of_notFound hmissing hmade ht', hgrown₁.trans hgrown⟩

/-- Directories are made where they are missing, and nothing else is changed. -/
theorem makeDirectories_leading (ht : t.Rooted place) (hne : front ≠ [])
    (hbegins : front ++ r <+: Path.pieces path) (hfits : pathFault? path = none)
    (hfront : t.follow [] (front.filter (· ≠ "")) = .ok place) (hr : ∀ n ∈ r, IsName n)
    (hfree : ∀ q bytes, q <+: r → t.get? (place ++ q) ≠ some (.file bytes)) :
    ∃ t', disk.makeDirectories (Path.leading (front ++ r).reverse) t = (.ok (), t') ∧
      t.Grown t' place r .directory := by
  induction r using List.reverseRecOn with
  | nil =>
      rw [List.append_nil] at hbegins ⊢
      exact ⟨t, makeDirectories_front hne hbegins hfits hfront ht.directory,
        ht.grown_self (by rw [List.append_nil, ht.directory])⟩
  | append_singleton r name ih =>
      obtain ⟨hr', hlast⟩ := List.forall_mem_append.mp hr
      have hname := hlast name List.mem_cons_self
      rw [← List.append_assoc] at hbegins ⊢
      have hroot : (front ++ r ++ [name]).reverse ≠ [""] := by simp [hname.ne_empty]
      obtain ⟨hpieces, hspelled⟩ := pathFault?_spell (by simp) hroot
        (by rwa [List.reverse_reverse]) hfits
      rw [Path.leading_concat (by simp [hne]) hname.isVoid]
      refine makeDirectories_concat ht ?_ hspelled hfront hr hfree (ih ?_ hr' ?_)
      · rw [hpieces, List.reverse_reverse, List.append_assoc]
      · exact (List.prefix_append _ _).trans hbegins
      · exact fun q bytes hq => hfree q bytes (hq.trans (List.prefix_append r [name]))

end NeuralC.Tree
