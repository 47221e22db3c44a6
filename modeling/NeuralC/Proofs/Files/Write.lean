import NeuralC.Proofs.Files.Tree

/-!
# NeuralC.Proofs.Files.Write

Writing generated files into an empty directory.  Where no path leads through
another, every file is written and the directories on the way to it are made; a
file stays as it is until one of the same path is written.  So in the end the
path of every file holds the contents that were written to it last
(`writeAll_last`), and nothing is lost when all paths differ.
-/

namespace NeuralC.Tree

variable {t : Tree} {dir path : String} {place : Place}

/-! ## One file -/

/-- The path leads to a directory with nothing in it. -/
structure EmptyDirectory (t : Tree) (dir : String) (place : Place) : Prop where
  located : t.locateExisting dir = .ok (place, .directory)
  empty : ∀ q, q ≠ [] → t.get? (place ++ q) = none

/-- A path that can be written below a directory. -/
structure Storable (dir path : String) : Prop where
  names : ∀ name ∈ Path.pieces path, IsName name
  fits : pathFault? (Path.join dir path) = none

/-- A path that is found is fit for use and leads to the entry. -/
theorem of_locateExisting {e : TreeEntry} (h : t.locateExisting path = .ok (place, e)) :
    pathFault? path = none ∧ t.follow [] (names path) = .ok place ∧ t.get? place = some e := by
  rw [locateExisting] at h
  split at h
  · contradiction
  · next p hwalk =>
    split at h
    · contradiction
    · next hget =>
      injection h with h
      obtain ⟨rfl, rfl⟩ := Prod.mk.inj h
      rw [walk] at hwalk
      split at hwalk
      · contradiction
      · next hfits =>
        rw [follow_append] at hwalk
        obtain ⟨q, hq, hdots⟩ := bind_eq_ok.mp hwalk
        obtain rfl := follow_dots (fun name hname => by split at hname <;> simp_all) hdots
        exact ⟨hfits, hq, hget⟩

/-- The pieces of a path below a directory that leads to a place. -/
theorem exists_front (hdir : dir ≠ "") (hlead : t.follow [] (names dir) = .ok place)
    (hs : Storable dir path) :
    ∃ front, front ≠ [] ∧ Path.pieces (Path.join dir path) = front ++ Path.pieces path ∧
      t.follow [] (front.filter (· ≠ "")) = .ok place := by
  obtain ⟨front, hjoin, hfront⟩ := Path.exists_join hdir fun h => (hs.names "" h).ne_empty rfl
  refine ⟨Path.pieces front, Path.pieces_ne_nil front, ?_, ?_⟩
  · rw [hjoin, Path.pieces_append]
  · rcases hfront with rfl | rfl
    · exact hlead
    · have hslash := Path.pieces_append front ""
      rw [String.append_empty, show Path.pieces "" = [""] from rfl] at hslash
      rw [names, hslash, List.filter_append] at hlead
      simpa using hlead

theorem Storable.endsWith_join {front : List String} (hs : Storable dir path)
    (hpieces : Path.pieces (Path.join dir path) = front ++ Path.pieces path) :
    (Path.join dir path).endsWith "/" = false := by
  apply Path.endsWith_eq_false
  rw [hpieces, List.getLast?_append_of_ne_nil _ (Path.pieces_ne_nil path)]
  exact fun hlast => (hs.names "" (List.mem_of_getLast? hlast)).ne_empty rfl

theorem writeFile_of_ok {contents : String} {t' : Tree}
    (h : t.write path contents.toUTF8 = .ok t') :
    disk.writeFile path contents t = (.ok (), t') := by
  simp only [Disk.writeFile, disk, update, bind_apply, h]
  rfl

/-- An artifact is written once its directories are made. -/
theorem writeArtifact_of_ok {a : Artifact} {parent : String} {t₁ t' : Tree}
    (hparent : Path.parent? (Path.join dir a.path) = some parent)
    (hmade : disk.makeDirectories (Path.ancestors parent) t = (.ok (), t₁))
    (hwrite : disk.writeFile (Path.join dir a.path) a.contents t₁ = (.ok (), t')) :
    disk.writeArtifact dir a t = (.ok (), t') := by
  simp [Disk.writeArtifact, hparent, hmade, hwrite, bind_apply]

/-- A file that stands in nobody's way is written. -/
theorem writeArtifact_grown {a : Artifact} (ht : t.Rooted place) (hdir : dir ≠ "")
    (hlead : t.follow [] (names dir) = .ok place) (hs : Storable dir a.path)
    (hfree : ∀ q name bytes, q ++ [name] <+: Path.pieces a.path →
      t.get? (place ++ q) ≠ some (.file bytes))
    (hfile : t.get? (place ++ Path.pieces a.path) ≠ some .directory) :
    ∃ t', disk.writeArtifact dir a t = (.ok (), t') ∧
      t.Grown t' place (Path.pieces a.path) (.file a.contents.toUTF8) := by
  obtain ⟨front, hne, hpieces, hfront⟩ := exists_front hdir hlead hs
  obtain ⟨r, name, hr⟩ : ∃ r name, Path.pieces a.path = r ++ [name] :=
    ⟨_, _, (List.dropLast_append_getLast (Path.pieces_ne_nil a.path)).symm⟩
  have hend := hs.endsWith_join hpieces
  have hnames := hs.names
  rw [hr] at hpieces hnames hfree hfile ⊢
  have hr' : ∀ n ∈ r, IsName n := (List.forall_mem_append.mp hnames).1
  have hname : IsName name := hnames name (by simp)
  obtain ⟨parent, hparent, hancestors⟩ := Path.parent?_eq
    (hpieces.trans (List.append_assoc front r [name]).symm) (by simp [hne]) hname.isVoid
  obtain ⟨t₁, hmade, hgrown₁⟩ := makeDirectories_leading ht hne
    (hpieces ▸ ⟨[name], List.append_assoc ..⟩) hs.fits hfront hr' fun q bytes hq => by
      obtain ⟨rest, rfl⟩ := hq
      cases rest with
      | nil => simpa using hfree q name bytes (by simp)
      | cons next rest => exact hfree q next bytes ⟨rest ++ [name], by simp⟩
  have hsame : t₁.get? (place ++ (r ++ [name])) = t.get? (place ++ (r ++ [name])) :=
    hgrown₁.frame_concat
  have ht₁ : t₁.Rooted place := hgrown₁.rooted (fun _ => rfl) ht
  have hlocate := locate_below hpieces hs.fits
    (follow_mono (fun _ hp => hgrown₁.keeps_directory (fun _ => rfl) hp) hfront) hnames
  rw [ht₁.follow_concat hnames hgrown₁.entry] at hlocate
  have hwrite : t₁.write (Path.join dir a.path) a.contents.toUTF8 =
      .ok (t₁.set (place ++ (r ++ [name])) (.file a.contents.toUTF8)) := by
    rw [← hsame] at hfile
    rw [write, hend, hlocate]
    simp
  refine ⟨_, writeArtifact_of_ok hparent ?_ (writeFile_of_ok hwrite),
    hgrown₁.trans (ht₁.grown_set hgrown₁.entry _)⟩
  rw [hancestors, hmade]

/-- A file that is there is read back as it was written. -/
theorem readText_eq {contents : String} (ht : t.Rooted place) (hdir : dir ≠ "")
    (hlead : t.follow [] (names dir) = .ok place) (hs : Storable dir path)
    (hfile : t.get? (place ++ Path.pieces path) = some (.file contents.toUTF8)) :
    disk.readText (Path.join dir path) t = (.ok contents, t) := by
  obtain ⟨front, -, hpieces, hfront⟩ := exists_front hdir hlead hs
  have hlocate := locate_below hpieces hs.fits hfront hs.names
  rw [ht.follow_eq_ok hs.names hfile] at hlocate
  have hread : t.read (Path.join dir path) = .ok contents.toUTF8 := by
    rw [read, locateExisting_of_locate hlocate hfile (by simp [hs.endsWith_join hpieces])]
  have hutf8 : String.fromUTF8? contents.toUTF8 = some contents := by
    rw [String.fromUTF8?, String.toUTF8_eq_toByteArray, dif_pos contents.isValidUTF8]
    rfl
  simp only [Disk.readText, disk, bind_apply, hread, hutf8]
  rfl

/-! ## Many files -/

/-- Paths that can be written below a directory together: none leads through another. -/
structure Compatible (dir : String) (paths : List String) : Prop where
  storable : ∀ path ∈ paths, Storable dir path
  apart : ∀ p ∈ paths, ∀ q ∈ paths, Path.pieces p <+: Path.pieces q → p = q

/-- No path leads through another. -/
theorem Compatible.not_through {paths : List String} (hp : Compatible dir paths) {p q name : String}
    (hpmem : p ∈ paths) (hqmem : q ∈ paths) : ¬ Path.pieces p ++ [name] <+: Path.pieces q := by
  intro hname
  rw [hp.apart p hpmem q hqmem ((List.prefix_append _ _).trans hname)] at hname
  have hlen := hname.length_le
  rw [List.length_append, List.length_singleton] at hlen
  omega

/-- Below the place of a directory there are only files of the given paths and the directories
on the way to them. -/
structure Holding (t : Tree) (dir : String) (place : Place) (paths : List String) : Prop
    extends Rooted t place where
  ne_empty : dir ≠ ""
  lead : t.follow [] (names dir) = .ok place
  file : ∀ q bytes, t.get? (place ++ q) = some (.file bytes) → ∃ p ∈ paths, q = Path.pieces p
  folder : ∀ q, q ≠ [] → t.get? (place ++ q) = some .directory →
    ∃ p ∈ paths, ∃ name, q ++ [name] <+: Path.pieces p

/-- An empty directory holds nothing that is in the way. -/
theorem EmptyDirectory.holding (h : t.EmptyDirectory dir place) (paths : List String) :
    t.Holding dir place paths := by
  obtain ⟨hfits, hlead, hdir⟩ := of_locateExisting h.located
  exact
    { directory := hdir
      above := fun q name hsome => by
        rw [h.empty (q ++ [name]) (by simp)] at hsome
        contradiction
      ne_empty := (pathFault?_eq_none.mp hfits).2.1
      lead := hlead
      file := fun q bytes hq => by
        by_cases hnil : q = []
        · rw [hnil, List.append_nil, hdir] at hq
          injection hq with hq
          contradiction
        · rw [h.empty q hnil] at hq
          contradiction
      folder := fun q hnil hq => by
        rw [h.empty q hnil] at hq
        contradiction }

namespace Holding

variable {paths : List String}

/-- At the place of an artifact there is no directory. -/
theorem ne_directory (h : t.Holding dir place paths) (hp : Compatible dir paths)
    (hpath : path ∈ paths) : t.get? (place ++ Path.pieces path) ≠ some .directory := by
  intro hdir
  obtain ⟨p, hmem, name, hname⟩ := h.folder _ (Path.pieces_ne_nil path) hdir
  exact hp.not_through hpath hmem hname

/-- Writing one artifact leaves nothing in the way of the others. -/
theorem grown {t' : Tree} {bytes : ByteArray} (h : t.Holding dir place paths)
    (hp : Compatible dir paths) (hpath : path ∈ paths)
    (hg : t.Grown t' place (Path.pieces path) (.file bytes)) : t'.Holding dir place paths where
  toRooted := hg.rooted (fun hdir => absurd hdir (h.ne_directory hp hpath)) h.toRooted
  ne_empty := h.ne_empty
  lead := by
    refine follow_mono (fun p hdir => ?_) h.lead
    exact hg.keeps_directory (fun hdir => absurd hdir (h.ne_directory hp hpath)) hdir
  file := by
    intro q old hq
    rcases hg.get?_cases q with ⟨rfl, -⟩ | ⟨-, hdir⟩ | hsame
    · exact ⟨path, hpath, rfl⟩
    · rw [hdir] at hq
      injection hq with hq
      contradiction
    · exact h.file q old (hsame ▸ hq)
  folder := by
    intro q hne hq
    rcases hg.get?_cases q with ⟨rfl, hfile⟩ | ⟨hname, -⟩ | hsame
    · rw [hfile] at hq
      injection hq with hq
      contradiction
    · exact ⟨path, hpath, hname⟩
    · exact h.folder q hne (hsame ▸ hq)

/-- One more file is written, and the other files stay. -/
theorem writeArtifact (h : t.Holding dir place paths) (hp : Compatible dir paths) {a : Artifact}
    (ha : a.path ∈ paths) :
    ∃ t', disk.writeArtifact dir a t = (.ok (), t') ∧ t'.Holding dir place paths ∧
      t'.get? (place ++ Path.pieces a.path) = some (.file a.contents.toUTF8) ∧
      ∀ p ∈ paths, p ≠ a.path →
        t'.get? (place ++ Path.pieces p) = t.get? (place ++ Path.pieces p) := by
  have hfree : ∀ q name bytes, q ++ [name] <+: Path.pieces a.path →
      t.get? (place ++ q) ≠ some (.file bytes) := by
    intro q name bytes hq hget
    obtain ⟨p, hmem, rfl⟩ := h.file q bytes hget
    exact hp.not_through hmem ha hq
  obtain ⟨t', ht', hg⟩ := writeArtifact_grown h.toRooted h.ne_empty h.lead
    (hp.storable a.path ha) hfree (h.ne_directory hp ha)
  refine ⟨t', ht', h.grown hp ha hg, hg.entry, fun p hmem hne => ?_⟩
  refine hg.frame _ fun q hq heq => hne ?_
  exact hp.apart p hmem a.path ha (List.append_cancel_left heq ▸ hq)

/-- All files are written, and each path holds what was written to it last. -/
theorem writeAll (h : t.Holding dir place paths) (hp : Compatible dir paths) {as : List Artifact}
    (has : ∀ a ∈ as, a.path ∈ paths) :
    ∃ t', disk.writeAll dir as t = (.ok (), t') ∧ t'.Holding dir place paths ∧
      (∀ front a back, as = front ++ a :: back → (∀ b ∈ back, b.path ≠ a.path) →
        t'.get? (place ++ Path.pieces a.path) = some (.file a.contents.toUTF8)) ∧
      ∀ p ∈ paths, (∀ a ∈ as, p ≠ a.path) →
        t'.get? (place ++ Path.pieces p) = t.get? (place ++ Path.pieces p) := by
  induction as generalizing t with
  | nil => exact ⟨t, rfl, h, by simp, fun _ _ _ => rfl⟩
  | cons a as ih =>
      obtain ⟨ha, has⟩ := List.forall_mem_cons.mp has
      obtain ⟨t₁, hwrite, h₁, hentry, hframe⟩ := h.writeArtifact hp ha
      obtain ⟨t', hrest, h', hlast, hframe'⟩ := ih h₁ has
      refine ⟨t', ?_, h', ?_, ?_⟩
      · simp only [Disk.writeAll, bind_apply, hwrite]
        exact hrest
      · intro front b back hsplit hback
        -- the first file stays as it is while files of other paths follow
        rcases List.cons_eq_append_iff.mp hsplit with ⟨rfl, hcons⟩ | ⟨front, rfl, rfl⟩
        · obtain ⟨rfl, rfl⟩ := List.cons.inj hcons
          rw [hframe' b.path ha fun c hc => (hback c hc).symm, hentry]
        · exact hlast front b back rfl hback
      · intro p hmem hne
        obtain ⟨hnea, hneas⟩ := List.forall_mem_cons.mp hne
        rw [hframe' p hmem hneas, hframe p hmem hnea]

end Holding

/-- Files written into an empty directory: in the end each path holds the contents that were
written to it last. -/
theorem writeAll_last {as : List Artifact} (h : t.EmptyDirectory dir place)
    (hp : Compatible dir (as.map Artifact.path)) :
    ∃ t', disk.writeAll dir as t = (.ok (), t') ∧
      ∀ front a back, as = front ++ a :: back → (∀ b ∈ back, b.path ≠ a.path) →
        disk.readText (Path.join dir a.path) t' = (.ok a.contents, t') := by
  obtain ⟨t', hwrite, hholding, hlast, -⟩ := (h.holding (as.map Artifact.path)).writeAll hp
    fun a ha => List.mem_map_of_mem ha
  refine ⟨t', hwrite, fun front a back hsplit hback => ?_⟩
  have hmem : a.path ∈ as.map Artifact.path := List.mem_map_of_mem (by simp [hsplit])
  exact readText_eq hholding.toRooted hholding.ne_empty hholding.lead (hp.storable a.path hmem)
    (hlast front a back hsplit hback)

end NeuralC.Tree
