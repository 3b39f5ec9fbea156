import FormSchema.Proofs.NodePath.Cells

/-!
# Families of paths

Paths are made from one another, in any order and from any path that is there. A family of paths behaves as
a family of lists: the one that is extended keeps its list, and the new one has the list with an addition at
its end. The only thing that cells add to lists is identity, and two paths are the same cell when the same
additions made them.

The proof is a simulation. Beside the family there runs a family of plain lists, to which the same
operations are applied, and after each operation every path holds the list with its number. A path
that is not there, or the parent of an empty path, is asked for in vain on both sides, so the two
stay in step for any operations whatever. What is to be shown of paths is then shown of lists, or
comes from the lemmas about single paths.

Persistence is a second fact about runs and needs no lists: an operation adds a path at the end of
the family and a cell at the end of the store, or nothing at all. So whatever was there keeps its
number and its cell.

* `NodePath.ListFamily` — what was added to each path of a family, told without cells.
* **`NodePath.Family.Follows.step`**, **`NodePath.Family.run_follows`** — operations keep a family in step with
  its lists.
* **`NodePath.Family.grows_step`**, **`NodePath.Family.grows_run`** — they leave the paths that are there alone.
* **`NodePath.Family.run_persistent`** — paths are persistent lists.
-/

namespace FormSchema

namespace NodePath

/-! ## Lists

The family of lists is the specification. Turns are counted over the whole family, because they
stand for the numbers of cells, of which all paths share one store. -/

/-- A family of lists: for each path all that was added to it. -/
structure ListFamily where
  -- how many entries were added so far
  turns : Nat
  -- numbered in the order in which the paths were made
  lists : List (List Addition)

namespace ListFamily

def start : ListFamily := ⟨0, [[]]⟩

def add (l : ListFamily) (xs : List Addition) (entry : String) : ListFamily :=
  ⟨l.turns + 1, l.lists ++ [xs ++ [⟨l.turns, entry⟩]]⟩

def step (l : ListFamily) : Op → ListFamily
  | .single entry => l.add [] entry
  | .child of entry =>
    match l.lists[of]? with
    | none => l
    | some xs => l.add xs entry
  | .parent of =>
    match l.lists[of]? with
    | none | some [] => l
    | some (x :: xs) => ⟨l.turns, l.lists ++ [(x :: xs).dropLast]⟩

def run (ops : List Op) : ListFamily := ops.foldl step start

/-- The parents of all paths are paths of the family. -/
structure Closed (l : ListFamily) : Prop where
  empty : [] ∈ l.lists
  parents : ∀ xs ∈ l.lists, xs.dropLast ∈ l.lists

theorem Closed.append {l : ListFamily} (h : l.Closed) {xs : List Addition} (hxs : xs.dropLast ∈ l.lists)
    (turns : Nat) : Closed ⟨turns, l.lists ++ [xs]⟩ where
  empty := List.mem_append_left _ h.empty
  parents ys hys := by
    rcases List.mem_append.mp hys with hold | hnew
    · exact List.mem_append_left _ (h.parents ys hold)
    · rw [List.mem_singleton.mp hnew]
      exact List.mem_append_left _ hxs

theorem Closed.add {l : ListFamily} (h : l.Closed) {xs : List Addition} (hxs : xs ∈ l.lists)
    (entry : String) : (l.add xs entry).Closed :=
  h.append (by rwa [List.dropLast_concat]) _

theorem Closed.step {l : ListFamily} (h : l.Closed) (op : Op) : (l.step op).Closed := by
  cases op with
  | single entry => exact h.add h.empty entry
  | child of entry =>
    rw [ListFamily.step]
    split
    · exact h
    · next xs hxs => exact h.add (List.mem_of_getElem? hxs) entry
  | parent of =>
    rw [ListFamily.step]
    split
    · exact h
    · exact h
    · -- what is added is a parent of a list that is there, so its own parent is there as well
      next x xs hxs =>
      exact h.append (h.parents _ (h.parents _ (List.mem_of_getElem? hxs))) _

theorem run_closed (ops : List Op) : (run ops).Closed := by
  have hstart : start.Closed := ⟨List.mem_singleton_self _, fun xs hxs => by
    rw [List.mem_singleton.mp hxs]
    exact List.mem_singleton_self _⟩
  exact List.foldlRecOn ops step hstart fun l hl op _ => hl.step op

end ListFamily

/-! ## Families

One operation keeps the two families in step and leaves alone what is there. Both facts go through
any number of operations, and the last theorem is put together from them and from what is known of
single paths. -/

namespace Family

variable {f g : Family} {l : ListFamily}

/-- A family in step with lists: every path was made by the additions of the list with its number. -/
structure Follows (f : Family) (l : ListFamily) : Prop where
  turns : f.store.cells.size = l.turns
  length : f.handles.length = l.lists.length
  holds : ∀ p ∈ f.handles.zip l.lists, f.store.Holds p.1 p.2

namespace Follows

/-- A number is that of a path and of its list, or of neither. -/
theorem lookup (h : f.Follows l) (i : Nat) :
    (f.handles[i]? = none ∧ l.lists[i]? = none) ∨
      ∃ k xs, f.handles[i]? = some k ∧ l.lists[i]? = some xs ∧ f.store.Holds k xs := by
  rcases Nat.lt_or_ge i f.handles.length with hlt | hge
  · have hlist := List.getElem?_eq_getElem (h.length ▸ hlt)
    have hhandle := List.getElem?_eq_getElem hlt
    exact Or.inr ⟨_, _, hhandle, hlist,
      h.holds (_, _) (List.mem_of_getElem? (List.getElem?_zip_eq_some.mpr ⟨hhandle, hlist⟩))⟩
  · exact Or.inl ⟨List.getElem?_eq_none hge, List.getElem?_eq_none (h.length ▸ hge)⟩

/-- One more path and the list behind it, in a store that has grown. -/
theorem append (h : f.Follows l) {s : Cells} {k : Cells.Handle} {xs : List Addition} {turns : Nat}
    (hgrows : f.store.Grows s) (hturns : s.cells.size = turns) (hold : s.Holds k xs) :
    (f.add (s, k)).Follows ⟨turns, l.lists ++ [xs]⟩ where
  turns := hturns
  length := by
    rw [add, List.length_append, List.length_append, h.length]
    rfl
  holds p hp := by
    rw [add, List.zip_append h.length] at hp
    rcases List.mem_append.mp hp with hold' | hnew
    · exact (h.holds p hold').grow hgrows
    · rw [List.mem_singleton.mp hnew]
      exact hold

theorem child (h : f.Follows l) {k : Cells.Handle} {xs : List Addition} (hold : f.store.Holds k xs)
    (entry : String) : (f.add (f.store.child k entry)).Follows (l.add xs entry) := by
  have hsize : (f.store.child k entry).1.cells.size = l.turns + 1 := by
    rw [(Cells.child_eq hold.live entry).2, Array.size_push, h.turns]
  refine h.append (Cells.grows_child _ k entry) hsize ?_
  rw [← h.turns]
  exact hold.child entry

/-- **An operation** keeps a family in step with its lists. -/
theorem step (h : f.Follows l) (op : Op) : (f.step op).Follows (l.step op) := by
  cases op with
  | single entry => exact h.child .empty entry
  | child of entry =>
    rw [Family.step, ListFamily.step]
    -- a path that was never made has no cell and no list, and nothing happens on either side
    rcases h.lookup of with ⟨hhandle, hlist⟩ | ⟨k, xs, hhandle, hlist, hold⟩
    · rw [hhandle, hlist]
      exact h
    · rw [hhandle, hlist]
      exact h.child hold entry
  | parent of =>
    rw [Family.step, ListFamily.step]
    rcases h.lookup of with ⟨hhandle, hlist⟩ | ⟨k, xs, hhandle, hlist, hold⟩
    · rw [hhandle, hlist]
      exact h
    · rw [hhandle, hlist, Option.bind_some]
      -- the empty path has no parent; any other one has a cell for all additions but its last
      cases xs with
      | nil =>
        rw [hold.parent?_eq_none_iff.mpr rfl]
        exact h
      | cons x xs =>
        rw [← List.dropLast_concat_getLast (List.cons_ne_nil x xs)] at hold
        obtain ⟨p, hp, -, above⟩ := hold.exists_parent
        rw [hp]
        exact h.append (.refl _) h.turns above

end Follows

/-- **After any operations** the family is in step with its lists. -/
theorem run_follows (ops : List Op) : (run ops).Follows (ListFamily.run ops) := by
  have hstart : start.Follows ListFamily.start := ⟨rfl, rfl, fun p hp => by
    rw [List.mem_singleton.mp hp]
    exact .empty⟩
  have hrun : ∀ (ops : List Op) (f : Family) (l : ListFamily), f.Follows l →
      (ops.foldl Family.step f).Follows (ops.foldl ListFamily.step l) := by
    intro ops
    induction ops with
    | nil => exact fun _ _ h => h
    | cons op ops ih => exact fun _ _ h => ih _ _ (h.step op)
  exact hrun ops _ _ hstart

/-- There are more paths than before, in a store that has grown. -/
structure Grows (f g : Family) : Prop where
  handles : f.handles <+: g.handles
  store : f.store.Grows g.store

theorem Grows.trans {e : Family} (h : f.Grows g) (h' : g.Grows e) : f.Grows e :=
  ⟨h.handles.trans h'.handles, h.store.trans h'.store⟩

theorem grows_refl (f : Family) : f.Grows f := ⟨List.prefix_refl _, .refl _⟩

theorem grows_child (f : Family) (k : Cells.Handle) (entry : String) :
    f.Grows (f.add (f.store.child k entry)) :=
  ⟨List.prefix_append _ _, Cells.grows_child _ k entry⟩

/-- **An operation** leaves the paths that are there alone. -/
theorem grows_step (f : Family) (op : Op) : f.Grows (f.step op) := by
  cases op with
  | single entry => exact f.grows_child none entry
  | child of entry =>
    rw [step]
    split
    · exact f.grows_refl
    · exact f.grows_child _ entry
  | parent of =>
    rw [step]
    split
    · exact f.grows_refl
    · exact ⟨List.prefix_append _ _, .refl _⟩

/-- **Later operations** leave the paths that are there alone. -/
theorem grows_run (ops more : List Op) : (run ops).Grows (run (ops ++ more)) := by
  rw [run, run, List.foldl_append]
  exact List.foldlRecOn more step (grows_refl _) fun g hg op _ => hg.trans (g.grows_step op)

/-- The paths that some operations make, each with the list behind it. -/
def paths (ops : List Op) : List (Cells.Handle × List Addition) :=
  (run ops).handles.zip (ListFamily.run ops).lists

/-- The last path is the child that was made last. -/
theorem run_child {ops : List Op} {i : Nat} {h : Cells.Handle} (hhandle : (run ops).handles[i]? = some h)
    (entry : String) :
    run (ops ++ [.child i entry]) = (run ops).add ((run ops).store.child h entry) := by
  show (ops ++ [Op.child i entry]).foldl step start = _
  rw [List.foldl_append, List.foldl_cons, List.foldl_nil, ← run, step, hhandle]

/-- The parent of a path is one of the paths. -/
theorem exists_parent_mem_paths {ops : List Op} {h : Cells.Handle} {xs : List Addition}
    (hpath : (h, xs) ∈ paths ops) (hxs : xs ≠ []) :
    ∃ k, (k, xs.dropLast) ∈ paths ops ∧ (run ops).store.parent? h = some k := by
  have hfollows := run_follows ops
  have hlist : xs.dropLast ∈ (ListFamily.run ops).lists :=
    (ListFamily.run_closed ops).parents xs (List.of_mem_zip hpath).2
  obtain ⟨j, hj⟩ := List.mem_iff_getElem?.mp hlist
  rcases hfollows.lookup j with ⟨-, hnone⟩ | ⟨k, ys, hk, hys, hold⟩
  · cases hnone.symm.trans hj
  · cases hys.symm.trans hj
    refine ⟨k, List.mem_of_getElem? (List.getElem?_zip_eq_some.mpr ⟨hk, hj⟩), ?_⟩
    exact ((hfollows.holds _ hpath).parent?_eq_some_iff hold).mpr
      ⟨xs.getLast hxs, (List.dropLast_concat_getLast hxs).symm⟩

/-- **Paths are persistent lists.** Whatever operations make a family of paths and whatever operations come
later, every path keeps its number and its cell, and later as before it shows just the list of what was added
to it: the entries in order, how many there are, the last one, and the entries joined by slashes. Two paths
are equal when their entries are, and the same cell when the same additions made them. All but the empty path
have a parent, which is the path of all additions but the last, and for a path that was made as a child the
very cell that it was made from. -/
theorem run_persistent (ops more : List Op) :
    (run ops).handles <+: (run (ops ++ more)).handles ∧
    (run ops).handles.length = (ListFamily.run ops).lists.length ∧
    (∀ h xs, (h, xs) ∈ paths ops →
      (run (ops ++ more)).store.observe h = (run ops).store.observe h ∧
      (run (ops ++ more)).store.Shows h xs ∧
      (run (ops ++ more)).store.Agrees h ∧
      ((run (ops ++ more)).store.parent? h = none ↔ xs = []) ∧
      (xs ≠ [] → ∃ k, (k, xs.dropLast) ∈ paths ops ∧
        (run (ops ++ more)).store.parent? h = some k)) ∧
    (∀ h xs k ys, (h, xs) ∈ paths ops → (k, ys) ∈ paths ops →
      (run (ops ++ more)).store.eq h k = (run ops).store.eq h k ∧
      (run (ops ++ more)).store.Compares h xs k ys) ∧
    ∀ i h entry, (run ops).handles[i]? = some h →
      ∃ k, (run (ops ++ [.child i entry])).handles = (run ops).handles ++ [k] ∧
        (run (ops ++ .child i entry :: more)).store.parent? k = some h := by
  have hgrows := grows_run ops more
  refine ⟨hgrows.handles, (run_follows ops).length, fun h xs hpath => ?_,
    fun h xs k ys hpath hpath' => ?_, fun i h entry hhandle => ?_⟩
  · -- the path held before, and a store that has only grown holds it still
    have hold := (run_follows ops).holds _ hpath
    have hobserve := hold.observe_eq hgrows.store
    have hlater := hold.grow hgrows.store
    refine ⟨hobserve, hlater.shows, hlater.agrees, hlater.parent?_eq_none_iff, fun hxs => ?_⟩
    obtain ⟨k, hk, hparent⟩ := exists_parent_mem_paths hpath hxs
    exact ⟨k, hk, (congrArg Cells.Observation.parent hobserve).trans hparent⟩
  · -- equality is read off the lists, and these stay what they are
    have hold := (run_follows ops).holds _ hpath
    have hold' := (run_follows ops).holds _ hpath'
    have heq := (hold.grow hgrows.store).compares (hold'.grow hgrows.store)
    refine ⟨Bool.eq_iff_iff.mpr ?_, heq⟩
    rw [heq.equal, (hold.compares hold').equal, (hold.grow hgrows.store).entries_eq, hold.entries_eq,
      (hold'.grow hgrows.store).entries_eq, hold'.entries_eq]
  · -- the operation attaches a cell at the end, whose parent is the cell it was called with
    have hrun := run_child hhandle entry
    rcases (run_follows ops).lookup i with ⟨hnone, -⟩ | ⟨h', xs, hsome, -, hold⟩
    · cases hnone.symm.trans hhandle
    · cases hsome.symm.trans hhandle
      refine ⟨((run ops).store.child h entry).2, by rw [hrun]; rfl, ?_⟩
      have hlater := (grows_run (ops ++ [.child i entry]) more).store
      rw [hrun, List.append_assoc] at hlater
      have hobserve := (hold.child entry).observe_eq hlater
      exact (congrArg Cells.Observation.parent hobserve).trans (hold.parent?_child entry)

/-- Two children of one path with the same empty entry, and the parent of the second one. -/
def siblings : List Op := [.single "a/b", .child 1 "", .child 1 "", .parent 3]

/-- A path with the entries of the first child, made from another start. -/
def cousin : List Op := [.single "a/b", .child 5 ""]

/-- The two children are equal, though they are two cells, and both have the parent that was asked for. That a
cousin is made later changes nothing of this. -/
theorem run_persistent_siblings :
    ((some 1, [⟨0, "a/b"⟩, ⟨1, ""⟩]) ∈ paths siblings ∧ (some 2, [⟨0, "a/b"⟩, ⟨2, ""⟩]) ∈ paths siblings ∧
      (some 0, [⟨0, "a/b"⟩]) ∈ paths siblings) ∧
    (run (siblings ++ cousin)).store.entries (some 1) = ["a/b", ""] ∧
    (run (siblings ++ cousin)).store.length (some 1) = 2 ∧
    (run (siblings ++ cousin)).store.last? (some 1) = some "" ∧
    (run (siblings ++ cousin)).store.text (some 1) = "a/b/" ∧
    (run (siblings ++ cousin)).store.eq (some 1) (some 2) = true ∧
    Cells.same (some 1) (some 2) = false ∧
    (run (siblings ++ cousin)).store.parent? (some 2) = some (some 0) ∧
    (∃ k, (k, [⟨0, "a/b"⟩]) ∈ paths siblings ∧
      (run (siblings ++ cousin)).store.parent? (some 1) = some k) ∧
    ∃ k, (run (siblings ++ [.child 4 "c"])).handles = [none, some 0, some 1, some 2, some 0, k] ∧
      (run (siblings ++ .child 4 "c" :: cousin)).store.parent? k = some (some 0) := by
  obtain ⟨-, -, hshown, hcompared, hmade⟩ := run_persistent siblings cousin
  have hleft : (some 1, [⟨0, "a/b"⟩, ⟨1, ""⟩]) ∈ paths siblings := List.mem_of_getElem? (i := 2) rfl
  have hright : (some 2, [⟨0, "a/b"⟩, ⟨2, ""⟩]) ∈ paths siblings := List.mem_of_getElem? (i := 3) rfl
  have habove : (some 0, [⟨0, "a/b"⟩]) ∈ paths siblings := List.mem_of_getElem? (i := 4) rfl
  obtain ⟨-, hshows, -, -, hparent⟩ := hshown _ _ hleft
  have hentries := hshows.entries
  have hentries' := (hshown _ _ hright).2.1.entries
  have hcompares := (hcompared _ _ _ _ hleft hright).2
  refine ⟨⟨hleft, hright, habove⟩, hentries, ?_, ?_, ?_, ?_, ?_, ?_, hparent (by simp), hmade 4 _ "c" rfl⟩
  · rw [hshows.length, hentries]
    rfl
  · rw [hshows.last, hentries]
    rfl
  · rw [hshows.text, hentries]
    rfl
  · rw [hcompares.equal, hentries, hentries']
    rfl
  · rfl
  · exact (hcompared _ _ _ _ hright habove).2.parent.mpr ⟨_, rfl⟩

end Family

end NodePath

end FormSchema
