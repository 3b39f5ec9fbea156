import FormSchema.NodePath

/-!
# Paths in cells

A path that is kept in a store is a chain of cells, shared with all paths that were made from it. It stands
for the additions that made its cells, and all that can be observed of it is told by them: the entries that
are collected on the way back, the depth that is kept in the last cell, the text, and how it compares with
other paths. Cells that are made later change nothing of this.

The relation `Holds` ties a handle to the additions that made it, and is all that is used of a store
from then on. It goes along the parents, so its induction is the recursion of everything that walks
back along a path. It also says that the depth in a cell is the number of additions, which is why
the cached depth may be used in place of counting.

An addition carries the turn at which it was made. Two paths with the same entries that were made at
different turns are equal without being the same cell, and the turns are what tells them apart. A
store only ever grows by a cell at its end, so a handle that holds some additions holds them for
ever.

* `NodePath.Cells.Holds` — a handle stands for the additions along the cells behind it.
* **`NodePath.Cells.Holds.child`**, **`NodePath.Cells.Holds.exists_parent`** — one more addition, and one less.
* **`NodePath.Cells.Holds.eq_iff`**, **`NodePath.Cells.Holds.same_iff`** — paths are equal when their entries
  are, and the same when their additions are.
* **`NodePath.Cells.Holds.shows`**, **`NodePath.Cells.Holds.compares`** — what can be observed of a path, and
  of two paths beside one another.
* **`NodePath.Cells.Holds.agrees`** — the value that a path stands for shows the same.
* **`NodePath.Cells.Holds.observe_eq`** — what was observed of a path stays as it was.
-/

namespace FormSchema

namespace NodePath

/-- An entry that was added to a path. -/
structure Addition where
  -- how many entries were added before, to any path of the family
  turn : Nat
  entry : String
deriving DecidableEq

/-! ## Cells and lists

First what a new cell is and that it leaves the others alone, then what can be concluded from
`Holds`: the cells on the way back spell the additions, a handle has one list of additions, and
equality, which is decided by walking back along both paths at once, is equality of the entries. -/

namespace Cells

variable {s s' : Cells} {h k : Handle} {c d : Cell} {xs ys : List Addition} {entry : String}

/-- The additions that a path was made by, along the cells behind it. Every addition makes one cell, so the
turn of an addition is the number of its cell. -/
inductive Holds (s : Cells) : Handle → List Addition → Prop where
  | empty : s.Holds none []
  | cell {i : Nat} {c : Cell} {xs : List Addition} (made : s.cell? (some i) = some c)
      (above : s.Holds c.parent xs) (depth : c.depth = xs.length + 1) :
      s.Holds (some i) (xs ++ [⟨i, c.entry⟩])

/-- Every cell is left as it is. -/
def Grows (s s' : Cells) : Prop :=
  ∀ (h : Handle) (c : Cell), s.cell? h = some c → s'.cell? h = some c

theorem Grows.refl (s : Cells) : s.Grows s := fun _ _ hc => hc

theorem Grows.trans {s'' : Cells} (h : s.Grows s') (h' : s'.Grows s'') : s.Grows s'' :=
  fun k c hc => h' k c (h k c hc)

theorem reach_le (hc : s.cell? h = some c) : h.reach ≤ s.cells.size := by
  cases h with
  | none => exact Nat.zero_le _
  | some i => exact Nat.succ_le_of_lt (Array.getElem?_eq_some_iff.mp hc).1

theorem child_eq (live : h.reach ≤ s.cells.size) (entry : String) :
    (s.child h entry).2 = some s.cells.size ∧
      (s.child h entry).1.cells = s.cells.push ⟨h, entry, s.length h + 1⟩ := by
  rw [child, dif_pos live]
  exact ⟨rfl, rfl⟩

theorem grows_child (s : Cells) (h : Handle) (entry : String) : s.Grows (s.child h entry).1 := by
  intro k c hc
  by_cases live : h.reach ≤ s.cells.size
  · cases k with
    | none => cases hc
    | some i =>
      have hlt : i < s.cells.size := reach_le hc
      show (s.child h entry).1.cells[i]? = some c
      rw [(child_eq live entry).2, Array.getElem?_push_lt hlt, ← Array.getElem?_eq_getElem hlt]
      exact hc
  · rwa [child, dif_neg live]

theorem trail_eq_nil (hc : s.cell? h = none) : s.trail h = [] := by
  rw [trail]
  split
  · rfl
  · next c hsome => cases hc.symm.trans hsome

theorem trail_eq_cons (hc : s.cell? h = some c) : s.trail h = c.entry :: s.trail c.parent := by
  rw [trail]
  split
  · next hnone => cases hc.symm.trans hnone
  · next d hd =>
    cases hc.symm.trans hd
    rfl

theorem eq_empty (hc : s.cell? h = none ∨ s.cell? k = none) : s.eq h k = same h k := by
  rw [eq]
  split
  · next c d hc' hd' =>
    rcases hc with hc | hd
    · cases hc.symm.trans hc'
    · cases hd.symm.trans hd'
  · rw [Bool.or_false]

/-- Two cells are compared by what they hold, unless they are one. -/
theorem eq_cells (hc : s.cell? h = some c) (hd : s.cell? k = some d) :
    s.eq h k = (same h k ||
      (s.eq c.parent d.parent && c.entry == d.entry && c.depth == d.depth)) := by
  rw [eq]
  split
  · next c' d' hc' hd' =>
    cases hc.symm.trans hc'
    cases hd.symm.trans hd'
    rfl
  · next hnone => exact absurd hd (hnone c d hc)

namespace Holds

theorem live (hold : s.Holds h xs) : h.reach ≤ s.cells.size := by
  cases hold with
  | empty => exact Nat.zero_le _
  | cell made => exact reach_le made

theorem grow (hold : s.Holds h xs) (hgrows : s.Grows s') : s'.Holds h xs := by
  induction hold with
  | empty => exact .empty
  | cell made _ depth ih => exact .cell (hgrows _ _ made) ih depth

theorem length_eq (hold : s.Holds h xs) : s.length h = xs.length := by
  cases hold with
  | empty => rfl
  | cell made _ depth =>
    rw [length, made, Option.elim_some, depth, List.length_append]
    rfl

theorem trail_eq (hold : s.Holds h xs) : s.trail h = (xs.map Addition.entry).reverse := by
  induction hold with
  | empty => exact trail_eq_nil rfl
  | cell made _ _ ih =>
    rw [trail_eq_cons made, ih, List.map_append, List.reverse_append]
    rfl

theorem entries_eq (hold : s.Holds h xs) : s.entries h = xs.map Addition.entry := by
  rw [entries, hold.trail_eq, List.reverse_reverse]

/-- **A new path** has one addition more than the path that is extended. -/
theorem child (hold : s.Holds h xs) (entry : String) :
    (s.child h entry).1.Holds (s.child h entry).2 (xs ++ [⟨s.cells.size, entry⟩]) := by
  obtain ⟨hhandle, hcells⟩ := child_eq hold.live entry
  have hmade : (s.child h entry).1.cell? (some s.cells.size) = some ⟨h, entry, s.length h + 1⟩ := by
    show (s.child h entry).1.cells[s.cells.size]? = _
    rw [hcells, Array.getElem?_push_size]
  rw [hhandle]
  exact .cell hmade (hold.grow (grows_child s h entry)) (by rw [hold.length_eq])

/-- The cell of a path is numbered by the last addition. -/
theorem handle_eq (hold : s.Holds h xs) : h = xs.getLast?.map Addition.turn := by
  cases hold with
  | empty => rfl
  | cell => rw [List.getLast?_concat]; rfl

/-- A path is made by one list of additions only. -/
theorem unique (hold : s.Holds h xs) (hold' : s.Holds h ys) : xs = ys := by
  induction hold generalizing ys with
  | empty =>
    cases hold' with
    | empty => rfl
  | cell made _ _ ih =>
    cases hold' with
    | cell made' above' _ =>
      cases made.symm.trans made'
      rw [ih above']

/-- **The same cell.** Two paths are one cell when the same additions made them. -/
theorem same_iff (hold : s.Holds h xs) (hold' : s.Holds k ys) : same h k = true ↔ xs = ys := by
  rw [same, beq_iff_eq]
  constructor
  · rintro rfl
    exact hold.unique hold'
  · rintro rfl
    rw [hold.handle_eq, ← hold'.handle_eq]

/-- **Equality** is that of the entries, wherever the cells behind the paths part. -/
theorem eq_iff (hold : s.Holds h xs) (hold' : s.Holds k ys) :
    s.eq h k = true ↔ s.entries h = s.entries k := by
  rw [hold.entries_eq, hold'.entries_eq]
  induction hold generalizing k ys with
  | empty =>
    rw [eq_empty (Or.inl rfl), Holds.empty.same_iff hold', List.map_nil]
    exact eq_comm.trans (List.map_eq_nil_iff.symm.trans eq_comm)
  | @cell i c xs made above depth ih =>
    have hold := cell made above depth
    cases hold' with
    | empty => rw [eq_empty (Or.inr rfl), hold.same_iff .empty, List.map_nil, List.map_eq_nil_iff]
    | @cell j d ys made' above' depth' =>
      rw [eq_cells made made', Bool.or_eq_true, hold.same_iff (cell made' above' depth')]
      simp only [Bool.and_eq_true, beq_iff_eq, ih above']
      constructor
      · -- one cell holds one list; of two cells the rest is compared first, then the last entries
        rintro (hsame | ⟨⟨hmap, hentry⟩, -⟩)
        · rw [hsame]
        · rw [List.map_append, List.map_append, hmap, List.map_singleton, List.map_singleton, hentry]
      · intro hmap
        rw [List.map_append, List.map_append] at hmap
        obtain ⟨hinit, hlast⟩ := List.append_inj' hmap rfl
        -- depths need no comparison of their own: equal lists are equally long
        have hdepth : c.depth = d.depth := by
          rw [depth, depth', ← List.length_map Addition.entry, hinit, List.length_map]
        exact Or.inr ⟨⟨hinit, List.singleton_inj.mp hlast⟩, hdepth⟩

theorem parent?_eq_none_iff (hold : s.Holds h xs) : s.parent? h = none ↔ xs = [] := by
  cases hold with
  | empty => exact ⟨fun _ => rfl, fun _ => rfl⟩
  | cell made => simp [parent?, made]

/-- **The parent** is the path of all additions but the last. -/
theorem exists_parent {x : Addition} (hold : s.Holds h (xs ++ [x])) :
    ∃ p, s.parent? h = some p ∧ s.last? h = some x.entry ∧ s.Holds p xs := by
  generalize hlist : xs ++ [x] = zs at hold
  cases hold with
  | empty => simp at hlist
  | @cell i c ys made above _ =>
    obtain ⟨rfl, hlast⟩ := List.append_inj' hlist rfl
    cases List.singleton_inj.mp hlast
    exact ⟨c.parent, by rw [parent?, made, Option.map_some], by rw [last?, made, Option.map_some], above⟩

/-- The parent is told by its list of additions. -/
theorem parent?_eq_some_iff (hold : s.Holds h xs) (hold' : s.Holds k ys) :
    s.parent? h = some k ↔ ∃ x, xs = ys ++ [x] := by
  constructor
  · intro hparent
    cases hold with
    | empty => cases hparent
    | @cell i c zs made above _ =>
      rw [parent?, made, Option.map_some] at hparent
      cases hparent
      exact ⟨⟨i, c.entry⟩, by rw [above.unique hold']⟩
  · rintro ⟨x, rfl⟩
    obtain ⟨p, hp, -, above⟩ := hold.exists_parent
    rw [hp, above.handle_eq, ← hold'.handle_eq]

/-- **A child** has the very handle that was extended for its parent. -/
theorem parent?_child (hold : s.Holds h xs) (entry : String) :
    (s.child h entry).1.parent? (s.child h entry).2 = some h :=
  ((hold.child entry).parent?_eq_some_iff (hold.grow (grows_child s h entry))).mpr ⟨_, rfl⟩

end Holds

/-! ## Observations

What a caller can see of a path, and of two paths beside one another, is gathered in records, each
of which is stated in terms of the additions. Since those do not change when the store grows, no
observation does. -/

theorem foldl_writeEntry {n : Nat} (hn : 0 < n) (out : String) (entries : List String) :
    (entries.zipIdx n).foldl writeEntry out = "/".intercalate (out :: entries) := by
  induction entries generalizing n out with
  | nil => exact String.intercalate_singleton.symm
  | cons e entries ih =>
    rw [List.zipIdx_cons, List.foldl_cons, ih (Nat.succ_pos n), writeEntry, if_pos hn,
      String.intercalate_cons_append, String.intercalate_cons_cons]

/-- **What is rendered** is the entries with a slash between them. -/
theorem render_eq (entries : List String) : render entries = "/".intercalate entries := by
  cases entries with
  | nil => exact String.intercalate_nil.symm
  | cons e entries =>
    rw [render, List.zipIdx_cons, List.foldl_cons, foldl_writeEntry (Nat.succ_pos 0)]
    rfl

/-- The value of entries that were added one after the other. -/
theorem foldl_child (entries : List String) (p : NodePath) :
    entries.foldl NodePath.child p = ⟨entries.reverse ++ p.reversed⟩ := by
  induction entries generalizing p with
  | nil => rfl
  | cons e entries ih =>
    rw [List.foldl_cons, ih, List.reverse_cons, List.append_assoc]
    rfl

/-- What can be observed of a path by itself. Comparing it at two moments compares everything at
once. -/
structure Observation where
  entries : List String
  length : Nat
  isEmpty : Bool
  last : Option String
  parent : Option Handle
  text : String
  value : NodePath

def observe (s : Cells) (h : Handle) : Observation :=
  ⟨s.entries h, s.length h, isEmpty h, s.last? h, s.parent? h, s.text h, s.path h⟩

/-- A path shows the entries that were added to it. How long it is, whether it is empty, what it
ends in and how it is written are all functions of these entries. -/
structure Shows (s : Cells) (h : Handle) (xs : List Addition) : Prop where
  entries : s.entries h = xs.map Addition.entry
  length : s.length h = (s.entries h).length
  isEmpty : Cells.isEmpty h = (s.entries h).isEmpty
  last : s.last? h = (s.entries h).getLast?
  text : s.text h = "/".intercalate (s.entries h)

/-- A path is worth the value that it stands for: adding the same entries to the empty path gives a
value which answers every question as the cells do. -/
structure Agrees (s : Cells) (h : Handle) : Prop where
  -- the value is made as the path is, by adding the entries
  made : s.path h = (s.entries h).foldl NodePath.child .root
  length : (s.path h).length = s.length h
  isEmpty : (s.path h).isEmpty = Cells.isEmpty h
  last : (s.path h).last? = s.last? h
  parent : (s.path h).parent? = (s.parent? h).map s.path
  text : (s.path h).text = s.text h

/-- Two paths beside one another. Equal paths are those with the same entries, which are also those
with the same value; one cell is the stronger thing and means the same additions. The parent of a
path is made by all of its additions but the last, and its text is a beginning of the text of the
path. -/
structure Compares (s : Cells) (h : Handle) (xs : List Addition) (k : Handle) (ys : List Addition) :
    Prop where
  equal : s.eq h k = true ↔ s.entries h = s.entries k
  values : s.eq h k = true ↔ s.path h = s.path k
  same : Cells.same h k = true ↔ xs = ys
  equal_of_same : Cells.same h k = true → s.eq h k = true
  parent : s.parent? h = some k ↔ ∃ x, xs = ys ++ [x]
  text : s.parent? h = some k → ∃ entry, s.last? h = some entry ∧
    s.text h = if Cells.isEmpty k then entry else s.text k ++ "/" ++ entry

namespace Holds

theorem last?_eq (hold : s.Holds h xs) : s.last? h = (xs.map Addition.entry).getLast? := by
  cases hold with
  | empty => rfl
  | cell made => rw [last?, made, Option.map_some, List.map_append, List.map_singleton, List.getLast?_concat]

theorem isEmpty_eq (hold : s.Holds h xs) : isEmpty h = xs.isEmpty := by
  cases hold with
  | empty => rfl
  | cell => simp [isEmpty]

/-- **What is shown of a path.** All that can be observed of it is a function of the list that it
holds, the number it keeps in its cell included. -/
theorem shows (hold : s.Holds h xs) : s.Shows h xs where
  entries := hold.entries_eq
  length := by rw [hold.length_eq, hold.entries_eq, List.length_map]
  isEmpty := by rw [hold.isEmpty_eq, hold.entries_eq, List.isEmpty_map]
  last := by rw [hold.last?_eq, hold.entries_eq]
  text := render_eq _

/-- **The value of a path** shows what its cells show. -/
theorem agrees (hold : s.Holds h xs) : s.Agrees h where
  made := by rw [foldl_child, entries, List.reverse_reverse, path, root, List.append_nil]
  length := by
    rw [hold.length_eq, NodePath.length, path, hold.trail_eq, List.length_reverse, List.length_map]
  isEmpty := by
    rw [hold.isEmpty_eq, NodePath.isEmpty, path, hold.trail_eq, List.isEmpty_reverse, List.isEmpty_map]
  last := by rw [hold.last?_eq, NodePath.last?, path, hold.trail_eq, List.head?_reverse]
  parent := by
    cases hold with
    | empty => rw [NodePath.parent?, path, trail_eq_nil rfl]; rfl
    | cell made => rw [NodePath.parent?, path, trail_eq_cons made, parent?, made]; rfl
  text := (render_eq _).symm

/-- The text of a path goes on from that of its parent. -/
theorem text_eq {x : Addition} (hold : s.Holds h (xs ++ [x])) (hold' : s.Holds k xs) :
    s.text h = if isEmpty k then x.entry else s.text k ++ "/" ++ x.entry := by
  rw [hold.shows.text, hold'.shows.text, hold.entries_eq, hold'.entries_eq, List.map_append,
    List.map_singleton, hold'.isEmpty_eq]
  cases xs with
  | nil => exact String.intercalate_singleton
  | cons y xs =>
    rw [String.intercalate_append_of_ne_nil (by simp) (by simp), String.intercalate_singleton]
    rfl

/-- **How two paths compare.** Equality goes back from both ends, cell by cell, and stops early
where both have come to the same cell. -/
theorem compares (hold : s.Holds h xs) (hold' : s.Holds k ys) : s.Compares h xs k ys where
  equal := hold.eq_iff hold'
  values := by
    rw [hold.eq_iff hold', entries, entries, List.reverse_inj, path, path, NodePath.mk.injEq]
  same := hold.same_iff hold'
  equal_of_same hsame := by
    rw [hold.eq_iff hold', hold.entries_eq, hold'.entries_eq, (hold.same_iff hold').mp hsame]
  parent := hold.parent?_eq_some_iff hold'
  text hparent := by
    obtain ⟨x, rfl⟩ := (hold.parent?_eq_some_iff hold').mp hparent
    obtain ⟨_, -, hlast, -⟩ := hold.exists_parent
    exact ⟨x.entry, hlast, hold.text_eq hold'⟩

/-- **New cells change nothing** that was to be seen of a path. -/
theorem observe_eq (hold : s.Holds h xs) (hgrows : s.Grows s') : s'.observe h = s.observe h := by
  have hcell : s'.cell? h = s.cell? h := by
    cases hold with
    | empty => rfl
    | cell made => rw [made, hgrows _ _ made]
  have htrail : s'.trail h = s.trail h := by rw [hold.trail_eq, (hold.grow hgrows).trail_eq]
  rw [observe, observe, entries, entries, length, length, last?, last?, parent?, parent?, text, text, path,
    path, entries, entries, hcell, htrail]

end Holds

end Cells

end NodePath

end FormSchema
