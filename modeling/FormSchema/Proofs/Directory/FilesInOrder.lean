import FormSchema.FileTree
import Mathlib.Data.List.Sort
import Mathlib.Data.String.Basic

/-!
# The files of a tree, in order

A directory lists its entries in any order, and the walk over a tree sorts them by name, level by level. So
the files come in the order of the names on the way to them, compared one by one, and what is listed depends
only on which files there are. It makes no difference how the entries happen to be listed, in which order the
files were written, and whether there are empty directories beside them.

A tree is looked at in two ways. One is the list that the walk makes of it, a recursion over entries
that have been sorted. The other is the plain relation that a file stands at the end of a way, which
knows nothing of an order. The first theorems tie the two together: the list has the files that
stand somewhere and no others, and it is strictly sorted by ways. A strictly sorted list is
determined by its members, so two trees in which the same files stand are listed alike, and nothing
more needs to be known about how either of them came to be.

The second half is about trees that come of writing files. Writing clears whatever is in the way, so
files survive one another only if none stands above another. For such files the tree has exactly
them, in whatever order they were written.

* `FileTree.Holds` — a file stands at the end of a way.
* **`FileTree.mem_files_iff`**, **`FileTree.files_sorted`** — every file once, in order.
* **`FileTree.Lists.files_eq`** — trees with the same files list them alike.
* **`FileTree.ofFiles_lists`** — files that are written one after the other, in any order.
-/

namespace FormSchema.FileTree

/-- Induction over a tree, with the hypothesis for every entry of a directory. -/
@[elab_as_elim]
theorem induct {P : FileTree → Prop} (file : ∀ text, P (.file text))
    (directory : ∀ entries, (∀ e ∈ entries, P e.2) → P (.directory entries)) (t : FileTree) : P t :=
  @FileTree.rec P (fun entries => ∀ e ∈ entries, P e.2) (fun e => P e.2) file directory (by simp)
    (fun _ _ he hes => List.forall_mem_cons.mpr ⟨he, hes⟩) (fun _ _ h => h) t

/-! ## Which files there are

The induction is on the tree, and at a directory it has to pass through the sort, which changes the
order of the entries and nothing else. For the order of the files the entries need different names:
then two files either share the first name and are compared by the rest, or differ in the first name
and are compared by that. -/

/-- A file with some text, if it has one, stands at the end of a way. -/
inductive Holds : FileTree → List String → Option String → Prop where
  | here {text : Option String} : Holds (.file text) [] text
  | beneath {entries : List (String × FileTree)} {name : String} {t : FileTree} {way : List String}
      {text : Option String} (h : (name, t) ∈ entries) (below : Holds t way text) :
      Holds (.directory entries) (name :: way) text

/-- The entries of every directory have different names. -/
inductive Named : FileTree → Prop where
  | file {text : Option String} : Named (.file text)
  | directory {entries : List (String × FileTree)} (distinct : (entries.map Prod.fst).Nodup)
      (below : ∀ e ∈ entries, Named e.2) : Named (.directory entries)

theorem filesOf_eq_map (entries : List (String × FileTree)) :
    filesOf entries = entries.map fun e => (e.1, e.2.files) := by
  induction entries with
  | nil => rfl
  | cons e entries ih => rw [filesOf, ih, List.map_cons]

theorem byName_perm {α : Type} (entries : List (String × α)) : (byName entries).Perm entries :=
  List.mergeSort_perm _ _

theorem byName_sorted {α : Type} {entries : List (String × α)}
    (distinct : (entries.map Prod.fst).Nodup) :
    (byName entries).Pairwise fun a b => a.1 < b.1 := by
  have hsorted : (byName entries).Pairwise fun a b => (!decide (b.1 < a.1)) = true := by
    refine List.pairwise_mergeSort (fun a b c hab hbc => ?_) (fun a b => ?_) entries
    · simp only [Bool.not_eq_true', decide_eq_false_iff_not, not_lt] at hab hbc ⊢
      exact le_trans hab hbc
    · simp only [Bool.or_eq_true, Bool.not_eq_true', decide_eq_false_iff_not, not_lt]
      exact le_total a.1 b.1
  have hdistinct : (byName entries).Pairwise fun a b => a.1 ≠ b.1 :=
    List.pairwise_map.mp (((byName_perm entries).map Prod.fst).nodup_iff.mpr distinct)
  refine hsorted.imp₂ (fun a b hle hne => ?_) hdistinct
  simp only [Bool.not_eq_true', decide_eq_false_iff_not, not_lt] at hle
  exact lt_of_le_of_ne hle hne

theorem holds_file_iff {found text : Option String} {way : List String} :
    (file found).Holds way text ↔ way = [] ∧ text = found := by
  constructor
  · intro h
    cases h
    exact ⟨rfl, rfl⟩
  · rintro ⟨rfl, rfl⟩
    exact .here

theorem holds_directory_iff {entries : List (String × FileTree)} {way : List String}
    {text : Option String} :
    (directory entries).Holds way text ↔
      ∃ e ∈ entries, ∃ rest, way = e.1 :: rest ∧ e.2.Holds rest text := by
  constructor
  · intro h
    cases h with
    | @beneath _ name t rest _ hmem below => exact ⟨(name, t), hmem, rest, rfl, below⟩
  · rintro ⟨⟨name, t⟩, hmem, rest, rfl, below⟩
    exact .beneath hmem below

/-- **Every file is listed.** Nothing is listed that is not there, and no file is lost in sorting
the entries of a directory. -/
theorem mem_files_iff {t : FileTree} {way : List String} {text : Option String} :
    (way, text) ∈ t.files ↔ t.Holds way text := by
  induction t using induct generalizing way text with
  | file found => rw [files, List.mem_singleton, Prod.mk.injEq, holds_file_iff]
  | directory entries ih =>
    rw [files, List.mem_flatMap, holds_directory_iff]
    constructor
    · rintro ⟨⟨name, found⟩, hmem, hfile⟩
      -- sorting entries by name changes their order and nothing else
      rw [(byName_perm _).mem_iff, filesOf_eq_map] at hmem
      obtain ⟨e, he, heq⟩ := List.mem_map.mp hmem
      cases heq
      obtain ⟨⟨rest, _⟩, hrest, heq⟩ := List.mem_map.mp hfile
      cases heq
      exact ⟨e, he, rest, rfl, (ih _ he).mp hrest⟩
    · rintro ⟨e, he, rest, rfl, below⟩
      refine ⟨(e.1, e.2.files), ?_, List.mem_map.mpr ⟨(rest, text), (ih _ he).mpr below, rfl⟩⟩
      rw [(byName_perm _).mem_iff, filesOf_eq_map]
      exact List.mem_map.mpr ⟨e, he, rfl⟩

/-- **Files are listed in the order of their ways**, and so each of them once. -/
theorem files_sorted {t : FileTree} (h : t.Named) : t.files.Pairwise fun a b => a.1 < b.1 := by
  induction t using induct with
  | file text => exact List.pairwise_singleton _ _
  | directory entries ih =>
    cases h with
    | directory distinct below =>
      have hnames : ((filesOf entries).map Prod.fst).Nodup := by
        rw [filesOf_eq_map, List.map_map]
        exact distinct
      rw [files]
      -- within one entry the rest of the ways decides, between two entries their names
      refine List.pairwise_flatMap.mpr ⟨?_, ?_⟩
      · rintro ⟨name, found⟩ hmem
        rw [(byName_perm _).mem_iff, filesOf_eq_map] at hmem
        obtain ⟨⟨_, t⟩, ht, heq⟩ := List.mem_map.mp hmem
        cases heq
        refine List.pairwise_map.mpr ((ih _ ht (below _ ht)).imp fun hlt => ?_)
        exact List.Lex.cons hlt
      · refine (byName_sorted hnames).imp ?_
        rintro ⟨name, found⟩ ⟨name', found'⟩ hlt file hfile file' hfile'
        obtain ⟨_, -, rfl⟩ := List.mem_map.mp hfile
        obtain ⟨_, -, rfl⟩ := List.mem_map.mp hfile'
        exact List.Lex.rel hlt

/-! ## Trees with given files

What a tree lists is a matter of its files alone. This is where the order in which entries happen to
be stored, and directories without files, drop out of everything that follows. -/

/-- The files of a tree are the given ones, whatever its directories are like otherwise. -/
structure Lists (t : FileTree) (files : List (List String × Option String)) : Prop where
  named : t.Named
  holds : ∀ way text, t.Holds way text ↔ (way, text) ∈ files

/-- Files in the order of their ways are listed just so. -/
theorem Lists.files_eq_of_sorted {t : FileTree} {fs : List (List String × Option String)} (h : t.Lists fs)
    (sorted : fs.Pairwise fun a b => a.1 < b.1) : t.files = fs := by
  have hsorted := files_sorted h.named
  refine List.Perm.eq_of_pairwise (fun a b _ _ hab hba => absurd (lt_trans hab hba) (lt_irrefl _))
    hsorted sorted ?_
  have hnodup : ∀ {l : List (List String × Option String)}, (l.Pairwise fun a b => a.1 < b.1) → l.Nodup :=
    fun hl => hl.imp fun hlt heq => ne_of_lt hlt (congrArg Prod.fst heq)
  refine (List.perm_ext_iff_of_nodup (hnodup hsorted) (hnodup sorted)).mpr fun ⟨way, text⟩ => ?_
  rw [mem_files_iff, h.holds]

/-- **It only matters which files there are.** Two trees that hold the same files are listed alike,
in whatever order their directories were read. -/
theorem Lists.files_eq {t t' : FileTree} {fs fs' : List (List String × Option String)} (h : t.Lists fs)
    (h' : t'.Lists fs') (hsame : ∀ f, f ∈ fs ↔ f ∈ fs') : t.files = t'.files := by
  refine files_eq_of_sorted ⟨h.named, fun way text => ?_⟩ (files_sorted h'.named)
  rw [h.holds, hsame, mem_files_iff, h'.holds]

/-! ## Writing files

One write is described by what stands where afterwards: the new file at the end of its way, and of
the old ones those whose ways neither lead through it nor are led through by it. A number of writes
is then a fold, and as long as the ways are apart from one another no write undoes an earlier one. -/

/-- Neither of two ways leads through the end of the other one, so that there can be a file at each. -/
def Apart (way way' : List String) : Prop := ¬ way <+: way' ∧ ¬ way' <+: way

theorem Apart.symm {way way' : List String} (h : Apart way way') : Apart way' way := ⟨h.2, h.1⟩

theorem apart_cons {name : String} {way way' : List String} :
    Apart (name :: way) (name :: way') ↔ Apart way way' := by
  rw [Apart, Apart, List.cons_prefix_cons, List.cons_prefix_cons]
  simp

theorem apart_of_ne {name name' : String} (h : name ≠ name') (way way' : List String) :
    Apart (name :: way) (name' :: way') := by
  rw [Apart, List.cons_prefix_cons, List.cons_prefix_cons]
  exact ⟨fun hprefix => h hprefix.1, fun hprefix => h hprefix.1.symm⟩

/-- The tree of files that are written one after the other. -/
def ofFiles (files : List (List String × Option String)) : FileTree :=
  files.foldl (fun t f => t.put (.file f.2) f.1) empty

theorem not_holds_empty {way : List String} {text : Option String} : ¬ empty.Holds way text := by
  intro h
  cases h with
  | beneath hmem => cases hmem

theorem named_empty : empty.Named := .directory .nil nofun

/-- The entries of a tree have different names, and so have those of the trees there. -/
theorem Named.entries {t : FileTree} (h : t.Named) :
    (t.entries.map Prod.fst).Nodup ∧ ∀ e ∈ t.entries, e.2.Named := by
  cases h with
  | file => exact ⟨.nil, nofun⟩
  | directory distinct below => exact ⟨distinct, below⟩

theorem Named.others_distinct {t : FileTree} (h : t.Named) (name : String) :
    ((t.entries.filter fun e => e.1 ≠ name).map Prod.fst).Nodup :=
  (List.filter_sublist.map Prod.fst).nodup h.entries.1

theorem lookup_eq_some_iff {entries : List (String × FileTree)} (h : (entries.map Prod.fst).Nodup)
    {name : String} {t : FileTree} : entries.lookup name = some t ↔ (name, t) ∈ entries := by
  induction entries with
  | nil => simp
  | cons e entries ih =>
    obtain ⟨key, old⟩ := e
    obtain ⟨hnew, hrest⟩ := List.nodup_cons.mp h
    rw [List.lookup_cons, List.mem_cons]
    by_cases hkey : name = key
    · subst hkey
      have hnot : (name, t) ∉ entries := fun hmem => hnew (List.mem_map.mpr ⟨_, hmem, rfl⟩)
      simp [hnot, eq_comm]
    · have hbeq : (name == key) = false := beq_eq_false_iff_ne.mpr hkey
      rw [hbeq, ih hrest]
      simp [hkey]

/-- What stands behind a name is what the entry of that name holds. -/
theorem holds_cons_iff {t : FileTree} (h : t.Named) {name : String} {way : List String}
    {text : Option String} :
    t.Holds (name :: way) text ↔ ((t.entries.lookup name).getD empty).Holds way text := by
  constructor
  · intro hholds
    cases hholds with
    | beneath hmem below =>
      rw [(lookup_eq_some_iff h.entries.1).mpr hmem]
      exact below
  · intro hholds
    cases hlookup : t.entries.lookup name with
    -- no entry has the name, and the tree that stands in for it holds nothing
    | none =>
      rw [hlookup] at hholds
      exact absurd hholds not_holds_empty
    | some old =>
      rw [hlookup] at hholds
      have hmem := (lookup_eq_some_iff h.entries.1).mp hlookup
      cases t with
      | file => cases hmem
      | directory entries => exact .beneath hmem hholds

theorem Named.lookup {t : FileTree} (h : t.Named) (name : String) :
    ((t.entries.lookup name).getD empty).Named := by
  cases hlookup : t.entries.lookup name with
  | none => exact named_empty
  | some old => exact h.entries.2 _ ((lookup_eq_some_iff h.entries.1).mp hlookup)

/-- Writing a file keeps the names of a directory different. -/
theorem Named.put {t : FileTree} (h : t.Named) (text : Option String) (way : List String) :
    (t.put (.file text) way).Named := by
  induction way generalizing t with
  | nil => exact .file
  | cons name way ih =>
    rw [FileTree.put]
    refine .directory ?_ (List.forall_mem_cons.mpr ⟨ih (h.lookup name), fun e he => ?_⟩)
    · refine List.nodup_cons.mpr ⟨fun hmem => ?_, h.others_distinct name⟩
      obtain ⟨e, he, hname⟩ := List.mem_map.mp hmem
      exact absurd hname (by simpa using (List.mem_filter.mp he).2)
    · exact h.entries.2 e (List.mem_filter.mp he).1

/-- **Writing a file** puts it at the end of its way and takes away what is in the way. All else
stays. The induction is on the way, and at every name there are two cases: the entry of that name is
written into, and any other entry is carried over untouched. -/
theorem holds_put {t : FileTree} (h : t.Named) {text found : Option String} {way v : List String} :
    (t.put (.file text) way).Holds v found ↔
      (v = way ∧ found = text) ∨ (t.Holds v found ∧ Apart v way) := by
  induction way generalizing t v with
  -- at the root the file replaces the whole tree, and every way leads through the root
  | nil =>
    rw [put]
    constructor
    · intro hholds
      cases hholds
      exact Or.inl ⟨rfl, rfl⟩
    · rintro (⟨rfl, rfl⟩ | ⟨-, hapart⟩)
      · exact .here
      · exact absurd List.nil_prefix hapart.2
  | cons name way ih =>
    have hnamed : (t.put (.file text) (name :: way)).Named := h.put text (name :: way)
    cases v with
    | nil =>
      constructor
      · intro hholds
        rw [put] at hholds
        cases hholds
      · rintro (⟨hnil, -⟩ | ⟨-, hapart⟩)
        · cases hnil
        · exact absurd List.nil_prefix hapart.1
    | cons first v =>
      rw [holds_cons_iff hnamed, put, entries, List.lookup_cons]
      -- a way that begins with the same name leads into the entry that was written into
      by_cases hfirst : first = name
      · subst hfirst
        rw [beq_self_eq_true]
        dsimp only
        rw [Option.getD_some, ih (h.lookup first), ← holds_cons_iff h, apart_cons]
        simp
      · have hbeq : (first == name) = false := beq_eq_false_iff_ne.mpr hfirst
        -- the entry of the other name is passed over when one of them is taken away
        have hlookup : (t.entries.filter fun e => e.1 ≠ name).lookup first = t.entries.lookup first := by
          refine Option.ext fun old => ?_
          rw [lookup_eq_some_iff (h.others_distinct name), lookup_eq_some_iff h.entries.1,
            List.mem_filter]
          simp [hfirst]
        rw [hbeq]
        dsimp only
        rw [hlookup, ← holds_cons_iff h]
        have hapart := apart_of_ne hfirst v way
        simp [hfirst, hapart]

/-- No two files of a list are in each other's way, and none is the root itself. -/
structure Separate (files : List (List String × Option String)) : Prop where
  apart : files.Pairwise fun f g => Apart f.1 g.1
  below : ∀ f ∈ files, f.1 ≠ []

theorem Separate.perm {files files' : List (List String × Option String)} (h : Separate files)
    (hperm : files'.Perm files) : Separate files' :=
  ⟨(hperm.pairwise_iff fun hapart => hapart.symm).mpr h.apart,
    fun f hf => h.below f (hperm.mem_iff.mp hf)⟩

theorem named_foldl_put (files : List (List String × Option String)) {t : FileTree} (h : t.Named) :
    (files.foldl (fun t f => t.put (.file f.2) f.1) t).Named := by
  induction files generalizing t with
  | nil => exact h
  | cons f files ih => exact ih (h.put f.2 f.1)

theorem holds_foldl_put {files : List (List String × Option String)}
    (apart : files.Pairwise fun f g => Apart f.1 g.1) {t : FileTree} (h : t.Named)
    (hfree : ∀ f ∈ files, ∀ v found, t.Holds v found → Apart v f.1) {v : List String}
    {found : Option String} :
    (files.foldl (fun t f => t.put (.file f.2) f.1) t).Holds v found ↔
      t.Holds v found ∨ (v, found) ∈ files := by
  induction files generalizing t with
  | nil => simp
  | cons f files ih =>
    obtain ⟨hf, hrest⟩ := List.pairwise_cons.mp apart
    obtain ⟨hfirst, hfiles⟩ := List.forall_mem_cons.mp hfree
    -- what stands after the first write is still apart from the files that are to come
    have hfree' : ∀ g ∈ files, ∀ v found, (t.put (.file f.2) f.1).Holds v found → Apart v g.1 := by
      intro g hg v found hholds
      rcases (holds_put h).mp hholds with ⟨rfl, -⟩ | ⟨hholds, -⟩
      · exact hf g hg
      · exact hfiles g hg v found hholds
    have hput : (t.put (.file f.2) f.1).Holds v found ↔ (v, found) = f ∨ t.Holds v found := by
      rw [holds_put h, Prod.ext_iff]
      exact or_congr_right ⟨And.left, fun hholds => ⟨hholds, hfirst v found hholds⟩⟩
    rw [List.foldl_cons, ih hrest (h.put f.2 f.1) hfree', hput, List.mem_cons]
    tauto

/-- No file stands beneath another one, and there is one file at the end of a way. Two ways of
which one leads through the other part ways nowhere, and where the shorter one ends there is a file,
and so nothing beneath. -/
theorem Holds.eq_of_prefix {t : FileTree} {way way' : List String} {text text' : Option String}
    (h : t.Holds way text) (named : t.Named) (h' : t.Holds way' text') (hleads : way <+: way') :
    (way, text) = (way', text') := by
  induction h generalizing way' with
  | here =>
    cases h'
    rfl
  | @beneath entries name t way text hmem below ih =>
    cases h' with
    | @beneath _ name' t' way' _ hmem' below' =>
      obtain ⟨rfl, hrestLeads⟩ := List.cons_prefix_cons.mp hleads
      -- names are different within a directory, so both ways take the same entry
      have hsame : t = t' := by
        have hlookup := (lookup_eq_some_iff named.entries.1).mpr hmem
        have hlookup' := (lookup_eq_some_iff named.entries.1).mpr hmem'
        exact Option.some.inj (hlookup.symm.trans hlookup')
      subst hsame
      have hrest := ih (named.entries.2 _ hmem) below' hrestLeads
      rw [(Prod.mk.inj hrest).1, (Prod.mk.inj hrest).2]

/-- The files of a tree are not in each other's way. -/
theorem Lists.separate {t : FileTree} {files : List (List String × Option String)} (h : t.Lists files)
    (distinct : files.Nodup) (below : ∀ f ∈ files, f.1 ≠ []) : Separate files := by
  have happart : ∀ f ∈ files, ∀ g ∈ files, f ≠ g → ¬ f.1 <+: g.1 := by
    intro f hf g hg hne hleads
    exact hne (Holds.eq_of_prefix ((h.holds _ _).mpr hf) h.named ((h.holds _ _).mpr hg) hleads)
  exact ⟨distinct.imp_of_mem fun hf hg hne => ⟨happart _ hf _ hg hne, happart _ hg _ hf hne.symm⟩, below⟩

/-- **Files that are written are there**, in whatever order they were written. -/
theorem ofFiles_lists {files files' : List (List String × Option String)} (h : Separate files)
    (hperm : files'.Perm files) : (ofFiles files').Lists files := by
  refine ⟨named_foldl_put files' named_empty, fun way text => ?_⟩
  have hfree : ∀ f ∈ files', ∀ v found, empty.Holds v found → Apart v f.1 :=
    fun _ _ _ _ hholds => absurd hholds not_holds_empty
  rw [ofFiles, holds_foldl_put (h.perm hperm).apart named_empty hfree, hperm.mem_iff]
  exact or_iff_right not_holds_empty

end FormSchema.FileTree
