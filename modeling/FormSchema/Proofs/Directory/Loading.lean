import FormSchema.Directory
import FormSchema.Proofs.Directory.FilesInOrder
import FormSchema.Proofs.Definition.Insertions
import FormSchema.Proofs.Registry.KeyOrder

/-!
# Loading a directory

The form files below a directory are taken in the order of the ways to them, one at a time. The first one that
cannot be read, that is no form or whose key is taken already ends the loading, and what comes after it does
not matter. Without such a file there is one form for each of them. Since the order of the ways is a matter of
the ways alone, nothing else about the directory can make a difference.

Loading is a fold that may fail. Its invariant is that after some files the registry holds the forms
of just these files, one for each, under different keys, and was grown by insertions. From the
invariant it can be read off when the next file is refused: its text cannot be had, or does not read
as a form, or reads as a form whose key is that of an earlier one. These three are exactly the
errors, each with the file that it names, so that the outcome of the whole fold is told without the
fold: it stops at the first file that is at fault, or else nobody is.

That the outcome does not depend on the order in which a directory lists its entries is then no
matter of loading any more. It follows from the order of the files, which is one of their ways.

* `Directory.Faulty` — what is the matter with a file, given those before it.
* `Directory.Taken` — what comes of taking files one at a time.
* **`Directory.load_eq_iff`** — loading takes the form files in order.
* **`Directory.load_in_order`** — and depends on nothing but which files there are.
-/

namespace FormSchema

/-! ## Sources of forms

What is said of files and forms is said by relations: a file reads as a form, files read as forms
with different keys, a file is at fault after others. They do not mention registries, and the
outcome of loading is stated in terms of them. -/

/-- A form that is read has the source that it was read from. -/
theorem parseForm_source {c : Config} {source text : String} {f : Form}
    (h : parseForm c source text = .ok f) : f.source = source := by
  rw [parseForm] at h
  split at h
  · cases h
  · next draft _ =>
    rw [FormDraft.assemble] at h
    obtain ⟨g, hothers, hchildren⟩ := exists_ok_of_bind h
    -- neither attributes nor children change where a form is from
    have hg : g.source = source := by
      refine foldlM_keeps (P := fun g : Form => g.source = source) (fun g _ g' hg hstep => ?_) rfl hothers
      obtain ⟨value, -, hstep⟩ := exists_ok_of_bind hstep
      obtain ⟨attrs, -, rfl⟩ := Form.withAttribute_eq_ok (ok_of_mapError hstep)
      exact hg
    refine foldlM_keeps (P := fun g : Form => g.source = source) (fun g _ g' hg hstep => ?_) hg hchildren
    obtain ⟨d, -, hstep⟩ := exists_ok_of_bind hstep
    obtain ⟨-, rfl⟩ := Form.withChild_eq_ok (ok_of_mapError hstep)
    exact hg

namespace Directory

variable {c : Config}

/-- A file reads as a form, which has the label of the file for its source. -/
structure Reads (c : Config) (file : FormSource) (f : Form) : Prop where
  labelled : f.source = file.label
  parsed : ∃ text, file.text = some text ∧ parseForm c file.label text = .ok f

/-- Files that read as forms with different keys. -/
structure Sound (c : Config) (files : List FormSource) (forms : List Form) : Prop where
  reads : List.Forall₂ (Reads c) files forms
  distinct : (forms.map fun f => f.key).Nodup

/-- What is the matter with a file that comes after others. -/
inductive Faulty (c : Config) (earlier : List FormSource) (file : FormSource) : LoadError → Prop where
  | unreadable (h : file.text = none) : Faulty c earlier file (.unreadable file.label)
  | invalid {text : String} {cause : FormFileError} (h : file.text = some text)
      (hparse : parseForm c file.label text = .error cause) :
      Faulty c earlier file (.invalid file.label cause)
  | duplicate {f g : Form} {first : FormSource} (h : Reads c file f) (hfirst : first ∈ earlier)
      (hreads : Reads c first g) (hkey : g.key = f.key) :
      Faulty c earlier file (.duplicate ⟨f.key, first.label, file.label⟩)

/-- What comes of taking files one at a time: the first one that is at fault stops it, or else a
registry is complete, with one form for each file. Which of the two it is, and which file is at
fault, is determined by the list. -/
inductive Taken (c : Config) (files : List FormSource) : Except LoadError Registry → Prop where
  | stopped {earlier later : List FormSource} {file : FormSource} {forms : List Form} {e : LoadError}
      (split : files = earlier ++ file :: later) (sound : Sound c earlier forms)
      (fault : Faulty c earlier file e) : Taken c files (.error e)
  | complete {forms : List Form} {r : Registry} (sound : Sound c files forms)
      (holds : r.forms.Perm forms) (sorted : Registry.Sorted r.forms)
      (found : ∀ f ∈ forms, r.get? f.key = some f) : Taken c files (.ok r)

/-! ## One file after the other

The step of the fold. The invariant is `Registered`; each way for a step to fail is a way for a file
to be at fault and conversely, and a step that succeeds keeps the invariant for one file more. -/

theorem formOf_eq_ok_iff {file : FormSource} {f : Form} :
    formOf c file = .ok f ↔ Reads c file f := by
  rw [formOf]
  constructor
  · intro h
    split at h
    · cases h
    · next text htext =>
      have hparse := ok_of_mapError h
      exact ⟨parseForm_source hparse, text, htext, hparse⟩
  · rintro ⟨-, text, htext, hparse⟩
    rw [htext]
    dsimp only
    rw [hparse]
    rfl

theorem formOf_eq_error_iff {file : FormSource} {e : LoadError} :
    formOf c file = .error e ↔ (file.text = none ∧ e = .unreadable file.label) ∨
      ∃ text cause, file.text = some text ∧ parseForm c file.label text = .error cause ∧
        e = .invalid file.label cause := by
  rw [formOf]
  cases htext : file.text with
  | none => simp [eq_comm]
  | some text => cases hparse : parseForm c file.label text <;> simp [hparse, Except.mapError, eq_comm]

theorem Reads.unique {file : FormSource} {f g : Form} (hf : Reads c file f) (hg : Reads c file g) :
    f = g := Except.ok.inj ((formOf_eq_ok_iff.mpr hf).symm.trans (formOf_eq_ok_iff.mpr hg))

theorem Sound.exists_form {files : List FormSource} {forms : List Form} (h : Sound c files forms)
    {file : FormSource} (hfile : file ∈ files) : ∃ f ∈ forms, Reads c file f := by
  have hreads := h.reads
  clear h
  induction hreads with
  | nil => cases hfile
  | cons hfirst _ ih =>
    rcases List.mem_cons.mp hfile with rfl | hfile
    · exact ⟨_, List.mem_cons_self, hfirst⟩
    · obtain ⟨f, hf, hreads⟩ := ih hfile
      exact ⟨f, List.mem_cons_of_mem _ hf, hreads⟩

theorem Sound.exists_file {files : List FormSource} {forms : List Form} (h : Sound c files forms)
    {f : Form} (hf : f ∈ forms) : ∃ file ∈ files, Reads c file f := by
  have hreads := h.reads
  clear h
  induction hreads with
  | nil => cases hf
  | cons hfirst _ ih =>
    rcases List.mem_cons.mp hf with rfl | hf
    · exact ⟨_, List.mem_cons_self, hfirst⟩
    · obtain ⟨file, hfile, hreads⟩ := ih hf
      exact ⟨file, List.mem_cons_of_mem _ hfile, hreads⟩

theorem Sound.unique {files : List FormSource} {forms forms' : List Form} (h : Sound c files forms)
    (h' : Sound c files forms') : forms = forms' :=
  Relator.RightUnique.forall₂ (R := Reads c) (fun _ _ _ => Reads.unique) h.reads h'.reads

/-- The forms of some files have been registered. -/
structure Registered (c : Config) (files : List FormSource) (forms : List Form) (r : Registry) : Prop where
  grown : r.Grown
  sound : Sound c files forms
  holds : r.forms.Perm forms

theorem Registered.empty (c : Config) : Registered c [] [] .empty := ⟨.empty, ⟨.nil, .nil⟩, .nil⟩

section Step

variable {files : List FormSource} {forms : List Form} {r : Registry}

/-- A key is taken by the form of one of the files. -/
theorem Registered.get?_eq_some_iff (h : Registered c files forms r) {key : FormKey} {g : Form} :
    r.get? key = some g ↔ g ∈ forms ∧ g.key = key := by
  rw [h.grown.get?_eq_some_iff, h.holds.mem_iff]

/-- A file that reads as a form is refused exactly when an earlier one has its key. -/
theorem Registered.register_form_eq_error_iff (h : Registered c files forms r) {file : FormSource}
    {f : Form} (hf : Reads c file f) {e : LoadError} :
    register c r file = .error e ↔ ∃ first ∈ files, ∃ g, Reads c first g ∧ g.key = f.key ∧
      e = .duplicate ⟨f.key, first.label, file.label⟩ := by
  have hregister : register c r file = (r.insert f).mapError .duplicate := by
    rw [register, formOf_eq_ok_iff.mpr hf]
    rfl
  have herror : register c r file = .error e ↔ ∃ cause, r.insert f = .error cause ∧ e = .duplicate cause := by
    rw [hregister]
    cases r.insert f <;> simp [Except.mapError, eq_comm]
  rw [herror]
  constructor
  · rintro ⟨cause, hinsert, rfl⟩
    -- a form is refused when its key is taken, and what is registered came from an earlier file
    obtain ⟨g, hget, rfl⟩ := Registry.insert_eq_error.mp hinsert
    obtain ⟨hg, hkey⟩ := h.get?_eq_some_iff.mp hget
    obtain ⟨first, hfirst, hreads⟩ := h.sound.exists_file hg
    exact ⟨first, hfirst, g, hreads, hkey, by rw [hf.labelled, hreads.labelled]⟩
  · rintro ⟨first, hfirst, g, hreads, hkey, rfl⟩
    obtain ⟨g', hg', hreads'⟩ := h.sound.exists_form hfirst
    obtain rfl := hreads.unique hreads'
    have hget : r.get? f.key = some g := h.get?_eq_some_iff.mpr ⟨hg', hkey⟩
    refine ⟨_, Registry.insert_eq_error.mpr ⟨g, hget, rfl⟩, ?_⟩
    rw [hf.labelled, hreads.labelled]

/-- A file is refused exactly when something is the matter with it. -/
theorem Registered.register_eq_error_iff (h : Registered c files forms r) {file : FormSource}
    {e : LoadError} : register c r file = .error e ↔ Faulty c files file e := by
  have hunread : ∀ {cause : LoadError}, formOf c file = .error cause →
      register c r file = .error cause := fun hform => by rw [register, hform]; rfl
  constructor
  · intro hregister
    -- a file is at fault by its text, by its form, or by a form that was read before
    cases hform : formOf c file with
    | error cause =>
      obtain rfl : cause = e := Except.error.inj ((hunread hform).symm.trans hregister)
      rcases formOf_eq_error_iff.mp hform with ⟨htext, rfl⟩ | ⟨text, cause, htext, hparse, rfl⟩
      · exact .unreadable htext
      · exact .invalid htext hparse
    | ok f =>
      have hf : Reads c file f := formOf_eq_ok_iff.mp hform
      obtain ⟨first, hfirst, g, hreads, hkey, rfl⟩ := (h.register_form_eq_error_iff hf).mp hregister
      exact .duplicate hf hfirst hreads hkey
  · intro hfault
    cases hfault with
    | unreadable htext => exact hunread (formOf_eq_error_iff.mpr (.inl ⟨htext, rfl⟩))
    | invalid htext hparse => exact hunread (formOf_eq_error_iff.mpr (.inr ⟨_, _, htext, hparse, rfl⟩))
    | @duplicate f g first hf hfirst hreads hkey =>
      exact (h.register_form_eq_error_iff hf).mpr ⟨first, hfirst, g, hreads, hkey, rfl⟩

/-- A file that is taken adds its form. -/
theorem Registered.register_eq_ok (h : Registered c files forms r) {file : FormSource} {r' : Registry}
    (hregister : register c r file = .ok r') :
    ∃ f, Registered c (files ++ [file]) (forms ++ [f]) r' := by
  rw [register] at hregister
  obtain ⟨f, hform, hinsert⟩ := exists_ok_of_bind hregister
  have hinsert : r.insert f = .ok r' := ok_of_mapError hinsert
  have hf : Reads c file f := formOf_eq_ok_iff.mp hform
  obtain ⟨hfree, hr'⟩ := Registry.insert_eq_ok.mp hinsert
  -- the registry is asked for the key first, so no earlier form has it
  have hnew : f.key ∉ forms.map fun g => g.key := by
    intro hmem
    obtain ⟨g, hg, hkey⟩ := List.mem_map.mp hmem
    rw [h.get?_eq_some_iff.mpr ⟨hg, hkey⟩] at hfree
    cases hfree
  refine ⟨f, h.grown.insert hinsert, ⟨List.rel_append h.sound.reads (.cons hf .nil), ?_⟩, ?_⟩
  · rw [List.map_append, List.map_singleton]
    exact List.nodup_append.mpr ⟨h.sound.distinct, List.pairwise_singleton _ _,
      fun k hk k' hk' heq => hnew ((List.mem_singleton.mp hk') ▸ heq ▸ hk)⟩
  · rw [hr']
    exact (Registry.place_perm f r.forms).trans
      ((h.holds.cons f).trans (List.perm_append_singleton f forms).symm)

end Step

/-! ## All files

The induction is on the files that are still to come, with the invariant for those that have been
taken. For the converse one has to know that files which are all sound are never refused, and that
the two kinds of outcome exclude one another. -/

/-- The forms of any two files have different keys. -/
theorem Sound.pairwise {files : List FormSource} {forms : List Form} (h : Sound c files forms) :
    files.Pairwise fun a b => ∀ f g, Reads c a f → Reads c b g → f.key ≠ g.key := by
  obtain ⟨hreads, hdistinct⟩ := h
  induction hreads with
  | nil => exact .nil
  | @cons file f files forms hfirst hrest ih =>
    obtain ⟨hnew, hforms⟩ := List.nodup_cons.mp hdistinct
    refine List.pairwise_cons.mpr ⟨fun other hother f' g hf' hg hkey => hnew ?_, ih hforms⟩
    obtain ⟨g', hg', hreads⟩ := Sound.exists_form ⟨hrest, hforms⟩ hother
    obtain rfl := hg.unique hreads
    obtain rfl := hf'.unique hfirst
    exact List.mem_map.mpr ⟨g, hg', hkey.symm⟩

/-- Nothing is the matter with any of the files that read as forms with different keys. -/
theorem Sound.not_faulty {earlier later : List FormSource} {file : FormSource} {forms : List Form}
    (h : Sound c (earlier ++ file :: later) forms) {e : LoadError} : ¬ Faulty c earlier file e := by
  obtain ⟨f, -, -, text, htext, hparse⟩ :=
    h.exists_form (List.mem_append_right earlier List.mem_cons_self)
  intro hfault
  cases hfault with
  | unreadable hnone =>
    rw [hnone] at htext
    cases htext
  | invalid hsome herror =>
    rw [hsome] at htext
    cases htext
    rw [herror] at hparse
    cases hparse
  -- an earlier file with the same key would be a second form under it
  | duplicate hf hfirst hreads hkey =>
    have hapart := (List.pairwise_append.mp h.pairwise).2.2 _ hfirst _ List.mem_cons_self
    exact hapart _ _ hreads hf hkey

/-- Registering more files fails at one that is at fault, and otherwise adds the forms of all. -/
theorem Registered.run {done : List FormSource} {forms : List Form} {r : Registry}
    (h : Registered c done forms r) (files : List FormSource) :
    match files.foldlM (register c) r with
    | .error e => ∃ earlier file later forms', files = earlier ++ file :: later ∧
        Sound c (done ++ earlier) forms' ∧ Faulty c (done ++ earlier) file e
    | .ok r' => ∃ forms', Registered c (done ++ files) forms' r' := by
  induction files generalizing done forms r with
  | nil => exact ⟨forms, by rwa [List.append_nil]⟩
  | cons file files ih =>
    rw [List.foldlM_cons]
    cases hregister : register c r file with
    | error e =>
      refine ⟨[], file, files, forms, rfl, ?_⟩
      rw [List.append_nil]
      exact ⟨h.sound, h.register_eq_error_iff.mp hregister⟩
    -- one file more has been registered, and the rest goes on from there
    | ok next =>
      obtain ⟨f, hnext⟩ := h.register_eq_ok hregister
      have hrest := ih hnext
      show match files.foldlM (register c) next with
        | .error e => _
        | .ok r' => _
      cases hrun : files.foldlM (register c) next with
      | error e =>
        rw [hrun] at hrest
        obtain ⟨earlier, file', later, forms', rfl, hsound, hfault⟩ := hrest
        rw [List.append_assoc] at hsound hfault
        exact ⟨file :: earlier, file', later, forms', rfl, hsound, hfault⟩
      | ok r' =>
        rw [hrun] at hrest
        rwa [List.append_assoc] at hrest

/-- Files that read as forms with different keys are registered. -/
theorem Sound.foldlM {files : List FormSource} {forms : List Form} (h : Sound c files forms) :
    ∃ r, files.foldlM (register c) .empty = .ok r ∧ Registered c files forms r := by
  have hrun := (Registered.empty c).run files
  cases hfold : files.foldlM (register c) .empty with
  | error e =>
    rw [hfold] at hrun
    obtain ⟨earlier, file, later, _, rfl, -, hfault⟩ := hrun
    exact absurd hfault h.not_faulty
  | ok r =>
    rw [hfold] at hrun
    obtain ⟨forms', hr⟩ := hrun
    obtain rfl := h.unique hr.sound
    exact ⟨r, rfl, hr⟩

/-- **Loading takes the form files one at a time**, and comes to exactly what that does. -/
theorem load_eq_iff (d : Directory) (c : Config) (result : Except LoadError Registry) :
    d.load c = result ↔ Taken c (d.sources c) result := by
  rw [load]
  constructor
  · rintro rfl
    have hrun := (Registered.empty c).run (d.sources c)
    cases hfold : (d.sources c).foldlM (register c) .empty with
    | error e =>
      rw [hfold] at hrun
      obtain ⟨earlier, file, later, forms, hsplit, hsound, hfault⟩ := hrun
      exact .stopped hsplit hsound hfault
    | ok r =>
      rw [hfold] at hrun
      obtain ⟨forms, hr⟩ := hrun
      exact .complete hr.sound hr.holds hr.grown.ordered fun f hf => hr.get?_eq_some_iff.mpr ⟨hf, rfl⟩
  · intro htaken
    -- the other way round, what is said of the files decides the outcome of the fold
    cases htaken with
    | stopped hsplit sound fault =>
      obtain ⟨r, hfold, hr⟩ := sound.foldlM
      rw [hsplit, List.foldlM_append, hfold]
      show (List.foldlM (register c) r (_ :: _)) = _
      rw [List.foldlM_cons, hr.register_eq_error_iff.mpr fault]
      rfl
    | @complete forms r sound holds sorted _ =>
      obtain ⟨r', hfold, hr⟩ := sound.foldlM
      have hforms : r'.forms = r.forms := hr.grown.ordered.eq_of_perm sorted (hr.holds.trans holds.symm)
      rw [hfold]
      exact congrArg Except.ok (congrArg Registry.mk hforms)

/-! ## Which files are taken

The sources of a directory are its files in the order of the walk, filtered by name. Only here the
tree comes in, and only through its list of files. -/

/-- Whether the file at the end of a way is a form file. -/
def recognises (c : Config) (way : List String) : Bool :=
  (way.getLast?.bind PathText.nameExtension?).any c.isFormExtension

/-- What is taken of a file: its text, and the way to it for a label. -/
def sourceOf (file : List String × Option String) : FormSource := ⟨PathText.ofNames file.1, file.2⟩

theorem sources_directory (path : String) (entries : List (String × FileTree)) (c : Config) :
    (⟨path, some (.directory entries)⟩ : Directory).sources c =
      ((FileTree.directory entries).files.filter fun file => recognises c file.1).map sourceOf := by
  rw [sources, ← List.filterMap_eq_map, List.filterMap_filter]
  refine List.filterMap_congr fun ⟨way, text⟩ _ => ?_
  rfl

/-- **Loading depends only on which files there are.** From the files at the end of some ways the recognised
ones are taken in the order of the ways, one at a time, whatever the tree that holds them is like otherwise.
The first file that cannot be read, that is no form or that repeats the key of an earlier one is the error, no
matter what comes after it. Without such a file the registry holds one form for each file, under its key and
labelled with the way to the file. Trees with the same files come to the same, in particular those that come of
writing the files in different orders. -/
theorem load_in_order (path : String) (c : Config) {files : List (List String × Option String)}
    {t : FileTree} (lists : t.Lists files) (below : ∀ file ∈ files, file.1 ≠ []) :
    (∃ listed : List (List String × Option String),
      (∀ file, file ∈ listed ↔ file ∈ files ∧ recognises c file.1 = true) ∧
      (listed.Pairwise fun a b => a.1 < b.1) ∧
      ∀ result, load ⟨path, some t⟩ c = result ↔ Taken c (listed.map sourceOf) result) ∧
    (∀ t' files', (∀ file, file ∈ files' ↔ file ∈ files) → t'.Lists files' →
      load ⟨path, some t'⟩ c = load ⟨path, some t⟩ c) ∧
    (files.Nodup → ∀ files', files'.Perm files →
      load ⟨path, some (.ofFiles files')⟩ c = load ⟨path, some t⟩ c) := by
  -- with files below the root only, the tree is a directory
  have hdirectory : ∀ t' files', (∀ file, file ∈ files' ↔ file ∈ files) → t'.Lists files' →
      (⟨path, some t'⟩ : Directory).sources c =
        ((t'.files).filter fun file => recognises c file.1).map sourceOf := by
    intro t' files' hsame hlists
    cases t' with
    | file text =>
      have hroot := (hlists.holds [] text).mp .here
      exact absurd rfl (below _ ((hsame _).mp hroot))
    | directory entries => exact sources_directory path entries c
  have hfiles : ∀ t' files', (∀ file, file ∈ files' ↔ file ∈ files) → t'.Lists files' →
      load ⟨path, some t'⟩ c = load ⟨path, some t⟩ c := by
    intro t' files' hsame hlists
    rw [load, load, hdirectory t' files' hsame hlists, hdirectory t files (fun _ => Iff.rfl) lists,
      hlists.files_eq lists hsame]
  refine ⟨⟨t.files.filter fun file => recognises c file.1, fun file => ?_, ?_, fun result => ?_⟩,
    hfiles, fun hdistinct files' hperm => ?_⟩
  · obtain ⟨way, text⟩ := file
    rw [List.mem_filter, FileTree.mem_files_iff, lists.holds]
  · exact (FileTree.files_sorted lists.named).filter _
  · rw [load_eq_iff, hdirectory t files (fun _ => Iff.rfl) lists]
  · exact hfiles _ files (fun _ => Iff.rfl)
      (FileTree.ofFiles_lists (lists.separate hdistinct below) hperm)

end Directory

/-! ## An example -/

namespace Sample

/-- Two files with the same form, an unreadable one, and one that is no form file. -/
def shelf : List (List String × Option String) :=
  [(["notes.txt"], none), (["b", "letter.yml"], some letterText), (["a.yaml"], some letterText),
    (["z.yaml"], none)]

/-- A directory with these files, beside an empty directory. -/
def shelfTree : FileTree :=
  .directory [("notes.txt", .file none), ("b", .directory [("letter.yml", .file (some letterText))]),
    ("old", .directory []), ("a.yaml", .file (some letterText)), ("z.yaml", .file none)]

theorem shelfTree_lists : shelfTree.Lists shelf := by
  refine ⟨.directory (by decide) ?_, fun way text => ?_⟩
  · have hletter : (FileTree.directory [("letter.yml", .file (some letterText))]).Named :=
      .directory (by decide) (List.forall_mem_singleton.mpr .file)
    simp only [List.forall_mem_cons]
    exact ⟨.file, hletter, FileTree.named_empty, .file, .file, nofun⟩
  · simp [shelfTree, shelf, FileTree.holds_file_iff, FileTree.holds_directory_iff]

/-- The same files in the order of their ways. -/
def shelfInOrder : List (List String × Option String) :=
  [(["a.yaml"], some letterText), (["b", "letter.yml"], some letterText), (["notes.txt"], none),
    (["z.yaml"], none)]

theorem shelfTree_files : shelfTree.files = shelfInOrder := by
  refine FileTree.Lists.files_eq_of_sorted ⟨shelfTree_lists.named, fun way text => ?_⟩ (by decide)
  rw [shelfTree_lists.holds]
  simp only [shelf, shelfInOrder, List.mem_cons, List.not_mem_nil, or_false]
  tauto

theorem shelf_duplicate :
    ((shelfInOrder.filter fun file => Directory.recognises .standard file.1).map
      Directory.sourceOf).foldlM (Directory.register .standard) .empty =
      .error (.duplicate ⟨⟨"", "letter"⟩, "a.yaml", "b/letter.yml"⟩) := by
  have hshown : (match ((shelfInOrder.filter fun file => Directory.recognises .standard file.1).map
      Directory.sourceOf).foldlM (Directory.register .standard) .empty with
    | .error (.duplicate e) => some e
    | _ => none) = some ⟨⟨"", "letter"⟩, "a.yaml", "b/letter.yml"⟩ := by decide +kernel
  split at hshown
  · next e heq => rw [heq, Option.some.inj hshown]
  · cases hshown

end Sample

namespace Directory

/-- The letter in the second file has the key of the one in the first. The file behind them cannot be read,
which does not matter, and neither does the order in which the files were written. -/
theorem load_in_order_shelf :
    Sample.shelfTree.Lists Sample.shelf ∧ (∀ file ∈ Sample.shelf, file.1 ≠ []) ∧ Sample.shelf.Nodup ∧
    load ⟨"shelf", some Sample.shelfTree⟩ .standard =
      .error (.duplicate ⟨⟨"", "letter"⟩, "a.yaml", "b/letter.yml"⟩) ∧
    load ⟨"shelf", some (.ofFiles Sample.shelf.reverse)⟩ .standard =
      .error (.duplicate ⟨⟨"", "letter"⟩, "a.yaml", "b/letter.yml"⟩) ∧
    ∃ listed : List (List String × Option String), (listed.Pairwise fun a b => a.1 < b.1) ∧
      Taken .standard (listed.map sourceOf)
        (.error (.duplicate ⟨⟨"", "letter"⟩, "a.yaml", "b/letter.yml"⟩)) := by
  have hbelow : ∀ file ∈ Sample.shelf, file.1 ≠ [] := by decide
  have hdistinct : Sample.shelf.Nodup := by decide
  have hload : load ⟨"shelf", some Sample.shelfTree⟩ .standard =
      .error (.duplicate ⟨⟨"", "letter"⟩, "a.yaml", "b/letter.yml"⟩) := by
    rw [load, Sample.shelfTree, sources_directory, ← Sample.shelfTree, Sample.shelfTree_files]
    exact Sample.shelf_duplicate
  obtain ⟨⟨listed, -, hsorted, htaken⟩, -, hwritten⟩ :=
    load_in_order "shelf" .standard Sample.shelfTree_lists hbelow
  exact ⟨Sample.shelfTree_lists, hbelow, hdistinct, hload,
    (hwritten hdistinct _ (List.reverse_perm _)).trans hload, listed, hsorted, (htaken _).mp hload⟩

end Directory

end FormSchema
