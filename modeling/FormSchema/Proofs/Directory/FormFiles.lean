import FormSchema.Proofs.Registry.ByteOrder
import FormSchema.Proofs.Directory.Loading

/-!
# Form files below a directory

Of the files below a directory those are form files whose extension is one of those that are configured, but
for the case of letters. The walk over the directory sorts the names level by level, which is not the order of
the paths as texts: a slash counts as the end of a name, and not as a character that other characters may come
before. Each form file is listed once, and its label, the names on the way to it, belongs to no other file.

Which files are form files is decided by their names alone, and in two steps: the extension is split
off the last name on the way, and is compared with the configured ones up to the case of letters.
Both are described without reference to how they are computed. For the extension that is the shape
of the name, a stem that is not empty, a dot and a rest without dots; for the comparison it is a
relation between characters, taken along the two texts.

Labels are texts with slashes in them. They are as good as the ways they were made from because a
name has no slash, so that the slashes in a label show where the names end.

* `PathText.HasExtension`, `Config.SameLetter` — what an extension is, and when two of them are the same.
* `FileTree.Slashless` — no name has a slash in it.
* **`PathText.nameExtension?_eq_some_iff`**, **`Config.isFormExtension_iff`** — which files are form files.
* **`PathText.ofNames_injective`** — labels can be taken apart.
* **`Directory.sources_in_order`** — what is listed, in which order and under which labels.
-/

namespace FormSchema

/-! ## Extensions

The extension is found by reading the name backwards up to the first dot. A name that begins with
its only dot has no extension, which shows in a comparison of lengths: in front of the part that was
read there has to be room for the dot and at least one character. -/

namespace PathText

/-- The extension of a name is what stands behind its last dot, unless the name begins with that dot. -/
def HasExtension (name ext : String) : Prop :=
  ∃ stem, stem ≠ [] ∧ name.toList = stem ++ '.' :: ext.toList ∧ '.' ∉ ext.toList

theorem takeWhile_ne_append {c : Char} {cs rest : List Char} (h : c ∉ cs) :
    (cs ++ c :: rest).takeWhile (· ≠ c) = cs := by
  rw [List.takeWhile_append_of_pos fun x hx => by simpa using fun heq : x = c => h (heq ▸ hx)]
  simp

/-- What is left of a text behind all that is taken begins with the character that was looked for. -/
theorem exists_takeWhile_ne_append {c : Char} {cs : List Char}
    (h : (cs.takeWhile (· ≠ c)).length < cs.length) : ∃ rest, cs.takeWhile (· ≠ c) ++ c :: rest = cs := by
  have hsplit := List.takeWhile_append_dropWhile (p := (· ≠ c)) (l := cs)
  cases hrest : cs.dropWhile (· ≠ c) with
  | nil =>
    rw [hrest, List.append_nil] at hsplit
    rw [hsplit] at h
    exact absurd h (Nat.lt_irrefl _)
  | cons d rest =>
    have hd : d = c := by
      have hhead := List.head_dropWhile_not (· ≠ c) (l := cs)
      simp only [hrest, List.head_cons] at hhead
      simpa using hhead
    rw [hrest, hd] at hsplit
    exact ⟨rest, hsplit⟩

theorem notMem_takeWhile_ne {c : Char} (cs : List Char) : c ∉ cs.takeWhile (· ≠ c) := by
  intro hmem
  have hall : (cs.takeWhile (· ≠ c)).all (· ≠ c) = true := List.all_takeWhile
  simpa using List.all_eq_true.mp hall c hmem

/-- **What is taken for the extension of a name** is its extension. -/
theorem nameExtension?_eq_some_iff {name ext : String} :
    nameExtension? name = some ext ↔ HasExtension name ext := by
  constructor
  · intro h
    rw [nameExtension?, Option.ite_none_right_eq_some, Option.some.injEq] at h
    obtain ⟨hlength, rfl⟩ := h
    -- what was read has no dot, and in front of it there is one
    have hdot : '.' ∉ name.toList.reverse.takeWhile (· ≠ '.') := notMem_takeWhile_ne _
    obtain ⟨rest, hsplit⟩ : ∃ rest,
        name.toList.reverse.takeWhile (· ≠ '.') ++ '.' :: rest = name.toList.reverse := by
      apply exists_takeWhile_ne_append
      rw [List.length_reverse, String.length_toList]
      omega
    generalize name.toList.reverse.takeWhile (· ≠ '.') = behind at hlength hdot hsplit ⊢
    have hname : name.toList = rest.reverse ++ '.' :: behind.reverse := by
      have hreverse := congrArg List.reverse hsplit
      rw [List.reverse_append, List.reverse_cons, List.reverse_reverse] at hreverse
      simpa using hreverse.symm
    refine ⟨rest.reverse, ?_, by simpa using hname, by simpa using hdot⟩
    -- the part is short enough for a dot and a character in front of it
    rintro hnil
    have hcount := congrArg List.length hname
    rw [hnil, List.nil_append, List.length_cons, List.length_reverse, String.length_toList] at hcount
    omega
  · rintro ⟨stem, hstem, hname, hdot⟩
    have hbehind : name.toList.reverse.takeWhile (· ≠ '.') = ext.toList.reverse := by
      rw [hname, List.reverse_append, List.reverse_cons, List.append_assoc]
      exact takeWhile_ne_append (by simpa using hdot)
    have hlength : name.length = stem.length + (ext.length + 1) := by
      rw [← String.length_toList, hname, List.length_append, List.length_cons, String.length_toList]
    have hpos := List.length_pos_of_ne_nil hstem
    rw [nameExtension?, hbehind, List.length_reverse, String.length_toList, if_pos (by omega),
      List.reverse_reverse, String.ofList_toList]

end PathText

namespace Config

/-- A letter and the small letter for it, of those that have one here. -/
def Lowers (upper lower : Char) : Prop := upper.isUpper = true ∧ lower.toNat = upper.toNat + 32

/-- Two characters that do not differ but for the case of a letter. -/
def SameLetter (a b : Char) : Prop := a = b ∨ Lowers a b ∨ Lowers b a

theorem isUpper_iff_val {c : Char} : c.isUpper = true ↔ c.val ≥ 'A'.val ∧ c.val ≤ 'Z'.val :=
  decide_eq_true_iff

theorem isUpper_iff {c : Char} : c.isUpper = true ↔ 65 ≤ c.toNat ∧ c.toNat ≤ 90 := by
  simp [isUpper_iff_val, UInt32.le_iff_toNat_le, ← Char.toNat_val]

theorem toNat_toLower (c : Char) : c.toLower.toNat = if c.isUpper then c.toNat + 32 else c.toNat := by
  unfold Char.toLower
  by_cases h : c.isUpper = true
  · have hbounds := isUpper_iff.mp h
    rw [if_pos h, dif_pos (isUpper_iff_val.mp h), ← Char.toNat_val, UInt32.toNat_add, Char.toNat_val]
    show (c.toNat + 32) % 2 ^ 32 = c.toNat + 32
    omega
  · rw [if_neg h, dif_neg fun hval => h (isUpper_iff_val.mpr hval)]

theorem toLower_eq_iff {a b : Char} : a.toLower = b.toLower ↔ SameLetter a b := by
  rw [← Char.toNat_inj, toNat_toLower, toNat_toLower, SameLetter, Lowers, Lowers, ← Char.toNat_inj]
  split_ifs with ha hb hb
  all_goals
    simp only [isUpper_iff] at ha hb ⊢
    omega

theorem foldCase_eq_iff {s t : String} :
    foldCase s = foldCase t ↔ List.Forall₂ SameLetter s.toList t.toList := by
  rw [foldCase, foldCase, ← List.forall₂_eq_eq_eq, List.forall₂_map_left_iff, List.forall₂_map_right_iff]
  exact ⟨fun h => h.imp fun _ _ => toLower_eq_iff.mp, fun h => h.imp fun _ _ => toLower_eq_iff.mpr⟩

/-- **An extension marks a form file** if it is configured, in whatever case its letters are. -/
theorem isFormExtension_iff {c : Config} {ext : String} :
    c.isFormExtension ext = true ↔
      ∃ e ∈ c.formExtensions, List.Forall₂ SameLetter e.toList ext.toList := by
  simp [isFormExtension, foldCase_eq_iff]

end Config

/-! ## Labels

Joining names with a slash can be undone as long as no name has one. Below a directory that holds
for every way, and no way is empty, so different files have different labels. -/

namespace PathText

/-- **Labels can be taken apart**: the slashes between names are the only ones. -/
theorem ofNames_injective {way way' : List String} (h : ∀ name ∈ way, '/' ∉ name.toList)
    (h' : ∀ name ∈ way', '/' ∉ name.toList) (hne : way ≠ []) (hne' : way' ≠ [])
    (heq : ofNames way = ofNames way') : way = way' := by
  have hsplit : ∀ {names : List String}, (∀ name ∈ names, '/' ∉ name.toList) → names ≠ [] →
      (ofNames names).toList.splitOn '/' = names.map String.toList := by
    intro names hnames hnonempty
    rw [ofNames, String.toList_intercalate]
    refine List.splitOn_intercalate '/' ?_ (by simpa using hnonempty)
    simpa using hnames
  have hparts : way.map String.toList = way'.map String.toList := by
    rw [← hsplit h hne, ← hsplit h' hne', heq]
  exact List.map_injective_iff.mpr (fun _ _ => String.toList_inj.mp) hparts

end PathText

namespace FileTree

/-- No name in the tree has a slash in it. -/
inductive Slashless : FileTree → Prop where
  | file {text : Option String} : Slashless (.file text)
  | directory {entries : List (String × FileTree)} (names : ∀ e ∈ entries, '/' ∉ e.1.toList)
      (below : ∀ e ∈ entries, Slashless e.2) : Slashless (.directory entries)

theorem Slashless.names {t : FileTree} (h : t.Slashless) {way : List String} {text : Option String}
    (hholds : t.Holds way text) : ∀ name ∈ way, '/' ∉ name.toList := by
  induction hholds with
  | here => exact nofun
  | beneath hmem _ ih =>
    cases h with
    | directory names below => exact List.forall_mem_cons.mpr ⟨names _ hmem, ih (below _ hmem)⟩

theorem Holds.ne_nil {entries : List (String × FileTree)} {way : List String} {text : Option String}
    (h : (directory entries).Holds way text) : way ≠ [] := by
  cases h with
  | beneath => exact List.cons_ne_nil _ _

end FileTree

/-! ## What is listed

Everything comes together here. The list of sources is the list of files, filtered by their last
names, with labels made from the ways. Sortedness passes through the filter, and through the map
because labels are distinct. -/

namespace Directory

/-- A way ends in a name with an extension that is configured, in whatever case its letters are. -/
def LeadsToForm (c : Config) (way : List String) : Prop :=
  ∃ name ext, way.getLast? = some name ∧ PathText.HasExtension name ext ∧
    ∃ e ∈ c.formExtensions, List.Forall₂ Config.SameLetter e.toList ext.toList

theorem recognises_iff {c : Config} {way : List String} : recognises c way = true ↔ LeadsToForm c way := by
  rw [recognises, Option.any_eq_true]
  constructor
  · rintro ⟨ext, hext, hform⟩
    obtain ⟨name, hname, hsome⟩ := Option.bind_eq_some_iff.mp hext
    exact ⟨name, ext, hname, PathText.nameExtension?_eq_some_iff.mp hsome, Config.isFormExtension_iff.mp hform⟩
  · rintro ⟨name, ext, hname, hsome, hform⟩
    refine ⟨ext, ?_, Config.isFormExtension_iff.mpr hform⟩
    rw [hname]
    exact PathText.nameExtension?_eq_some_iff.mpr hsome

/-- **The form files below a directory** are listed each of them once, in the order of the names on the way to
them, which are compared one by one, each by its bytes. A file is listed exactly when its extension is one of
those that are configured. The label of a file is made of the names on the way to it, with slashes between
them, and no two files below the directory have the same. -/
theorem sources_in_order (path : String) (c : Config) {entries : List (String × FileTree)}
    (named : (FileTree.directory entries).Named) (slashless : (FileTree.directory entries).Slashless) :
    (∃ listed : List (List String × Option String),
      (⟨path, some (.directory entries)⟩ : Directory).sources c =
        listed.map (fun file => ⟨"/".intercalate file.1, file.2⟩) ∧
      (∀ way text, (way, text) ∈ listed ↔
        (FileTree.directory entries).Holds way text ∧ LeadsToForm c way) ∧
      listed.Pairwise fun a b => a.1.map Text.bytes < b.1.map Text.bytes) ∧
    (((⟨path, some (.directory entries)⟩ : Directory).sources c).map FormSource.label).Nodup ∧
    ∀ way way' text text', (FileTree.directory entries).Holds way text →
      (FileTree.directory entries).Holds way' text' →
      ("/".intercalate way = "/".intercalate way' ↔ way = way') := by
  have hlabels : ∀ way way' text text', (FileTree.directory entries).Holds way text →
      (FileTree.directory entries).Holds way' text' →
      ("/".intercalate way = "/".intercalate way' ↔ way = way') := by
    intro way way' text text' h h'
    refine ⟨fun heq => ?_, congrArg _⟩
    exact PathText.ofNames_injective (slashless.names h) (slashless.names h') h.ne_nil h'.ne_nil heq
  -- the listed files are those of the tree, filtered, and keep their order
  set listed := (FileTree.directory entries).files.filter fun file => recognises c file.1 with hlisted
  have hsources : (⟨path, some (.directory entries)⟩ : Directory).sources c = listed.map sourceOf :=
    sources_directory path entries c
  have hmem : ∀ way text, (way, text) ∈ listed ↔
      (FileTree.directory entries).Holds way text ∧ LeadsToForm c way := by
    intro way text
    rw [hlisted, List.mem_filter, FileTree.mem_files_iff, recognises_iff]
  have hordered : listed.Pairwise fun a b => a.1 < b.1 := (FileTree.files_sorted named).filter _
  refine ⟨⟨listed, hsources, hmem, hordered.imp fun hlt => ?_⟩, ?_, hlabels⟩
  · exact List.map_lt (fun _ _ => Text.bytes_lt_iff.mpr) hlt
  · rw [hsources, List.map_map]
    refine List.pairwise_map.mpr (hordered.imp_of_mem fun {a b} ha hb hlt heq => ?_)
    have hway := (hlabels a.1 b.1 a.2 b.2 ((hmem _ _).mp ha).1 ((hmem _ _).mp hb).1).mp heq
    exact absurd hlt (hway ▸ lt_irrefl _)

end Directory

namespace Sample

/-- A file beside a directory whose name it extends, a hidden file and one that is no form file. -/
def drawer : List (String × FileTree) :=
  [("a.yaml", .file none), ("notes.txt", .file none), ("a", .directory [("b.YML", .file none)]),
    (".yaml", .file none)]

theorem drawer_named : (FileTree.directory drawer).Named := by
  have hbelow : (FileTree.directory [("b.YML", .file none)]).Named :=
    .directory (by decide) (List.forall_mem_singleton.mpr .file)
  refine .directory (by decide) ?_
  simp only [drawer, List.forall_mem_cons]
  exact ⟨.file, .file, hbelow, .file, nofun⟩

theorem drawer_slashless : (FileTree.directory drawer).Slashless := by
  have hbelow : (FileTree.directory [("b.YML", .file none)]).Slashless :=
    .directory (by decide) (List.forall_mem_singleton.mpr .file)
  refine .directory (by decide) ?_
  simp only [drawer, List.forall_mem_cons]
  exact ⟨.file, .file, hbelow, .file, nofun⟩

end Sample

namespace Directory

/-- What is in the directory comes before the file whose name extends that of the directory, though the label
of the file is the lesser text. The hidden file has no extension. -/
theorem sources_in_order_drawer :
    (FileTree.directory Sample.drawer).Named ∧ (FileTree.directory Sample.drawer).Slashless ∧
    (⟨"drawer", some (.directory Sample.drawer)⟩ : Directory).sources .standard =
      [⟨"a/b.YML", none⟩, ⟨"a.yaml", none⟩] ∧
    ["a", "b.YML"].map Text.bytes < ["a.yaml"].map Text.bytes ∧ "a.yaml" < "a/b.YML" := by
  obtain ⟨⟨listed, hsources, hmem, hordered⟩, -, -⟩ :=
    sources_in_order "drawer" .standard Sample.drawer_named Sample.drawer_slashless
  have hbytes : ["a", "b.YML"].map Text.bytes < ["a.yaml"].map Text.bytes := by decide
  -- the directory in full: two files pass, and two do not end as a form file has to
  have hfiles : ∀ file, file ∈ listed ↔ file ∈ [(["a", "b.YML"], (none : Option String)), (["a.yaml"], none)] := by
    rintro ⟨way, text⟩
    rw [hmem, ← recognises_iff]
    simp only [Sample.drawer, FileTree.holds_directory_iff, FileTree.holds_file_iff, List.mem_cons,
      List.not_mem_nil, or_false, exists_eq_or_imp, exists_eq_left, Prod.mk.injEq]
    constructor
    · rintro ⟨⟨_, rfl, rfl, rfl⟩ | ⟨_, rfl, rfl, rfl⟩ | ⟨_, rfl, _, rfl, rfl, rfl⟩ | ⟨_, rfl, rfl, rfl⟩, hform⟩
      · exact Or.inr ⟨rfl, rfl⟩
      · exact absurd hform (by decide)
      · exact Or.inl ⟨rfl, rfl⟩
      · exact absurd hform (by decide)
    · rintro (⟨rfl, rfl⟩ | ⟨rfl, rfl⟩)
      · exact ⟨Or.inr (Or.inr (Or.inl ⟨_, rfl, _, rfl, rfl, rfl⟩)), by decide⟩
      · exact ⟨Or.inl ⟨_, rfl, rfl, rfl⟩, by decide⟩
  -- a sorted list is known by its members
  have hlisted : listed = [(["a", "b.YML"], none), (["a.yaml"], none)] := by
    have : Std.Irrefl fun a b : List String × Option String => a.1.map Text.bytes < b.1.map Text.bytes :=
      ⟨fun _ => List.lt_irrefl _⟩
    have : Std.Antisymm fun a b : List String × Option String => a.1.map Text.bytes < b.1.map Text.bytes :=
      ⟨fun _ _ hab hba => absurd hba (List.lt_asymm hab)⟩
    exact hordered.eq_of_mem_iff (List.pairwise_pair.mpr hbytes) hfiles
  refine ⟨Sample.drawer_named, Sample.drawer_slashless, ?_, hbytes, by decide⟩
  rw [hsources, hlisted]
  decide

end Directory

end FormSchema
