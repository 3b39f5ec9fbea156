/-!
# Node paths

The trail of entries that leads to a position reached in a descent. Paths are values: extending
one leaves it as it was. `NodePath.Cells` adds identity: a store of cells in which every extension
takes a new cell, so that two paths with the same entries can still be told apart.

* `NodePath.entries_child`, `NodePath.length_child` — an extension adds one entry at the end.
* `NodePath.Cells` — a handle names a cell, `parent?` gives back the handle a cell was made from.
  Cells are shared by all paths that extend them.
* `NodePath.Family` — paths made from one another in one store.
-/

namespace FormSchema

/-- A path of entries, kept from the last to the first. -/
structure NodePath where
  -- the entries, the last one first
  reversed : List String
deriving DecidableEq, Inhabited

namespace NodePath

def root : NodePath := ⟨[]⟩

def child (p : NodePath) (entry : String) : NodePath := ⟨entry :: p.reversed⟩

def single (entry : String) : NodePath := root.child entry

def entries (p : NodePath) : List String := p.reversed.reverse

def length (p : NodePath) : Nat := p.reversed.length

def isEmpty (p : NodePath) : Bool := p.reversed.isEmpty

def last? (p : NodePath) : Option String := p.reversed.head?

def parent? (p : NodePath) : Option NodePath :=
  match p.reversed with
  | [] => none
  | _ :: rest => some ⟨rest⟩

/-- The entries joined by a slash; an entry may hold slashes of its own. -/
def text (p : NodePath) : String := "/".intercalate p.entries

@[simp] theorem entries_root : root.entries = [] := rfl

@[simp] theorem entries_child (p : NodePath) (e : String) :
    (p.child e).entries = p.entries ++ [e] := by
  simp [child, entries]

@[simp] theorem length_child (p : NodePath) (e : String) :
    (p.child e).length = p.length + 1 := rfl

@[simp] theorem parent?_child (p : NodePath) (e : String) : (p.child e).parent? = some p := rfl

@[simp] theorem last?_child (p : NodePath) (e : String) : (p.child e).last? = some e := rfl

/-! ### Cells -/

/-- A path kept in a store: the number of its last cell, or `none` when it is empty. -/
abbrev Cells.Handle := Option Nat

/-- How many cells there are up to the last one of a path. -/
def Cells.Handle.reach : Cells.Handle → Nat
  | none => 0
  | some i => i + 1

/-- One cell of a store: an entry and the path it extends. -/
structure Cell where
  -- the path that was extended
  parent : Cells.Handle
  -- the entry added by this cell
  entry : String
  -- the number of entries, with this one
  depth : Nat
deriving DecidableEq

/-- Every cell extends a path of earlier ones. -/
def Cells.Ordered (cells : Array Cell) : Prop :=
  ∀ (i : Nat) (c : Cell), cells[i]? = some c → c.parent.reach ≤ i

theorem Cells.Ordered.push {cells : Array Cell} (h : Ordered cells) {c : Cell}
    (hc : c.parent.reach ≤ cells.size) : Ordered (cells.push c) := by
  intro i d hd
  rw [Array.getElem?_push] at hd
  split at hd
  · next hi =>
    cases hd
    exact hi ▸ hc
  · exact h i d hd

/-- A store of cells. -/
structure Cells where
  -- the cells, numbered in the order in which they were made
  cells : Array Cell
  ordered : Cells.Ordered cells
deriving DecidableEq

namespace Cells

def empty : Cells := ⟨#[], fun _ _ h => by simp at h⟩

/-- The last cell of a path. -/
def cell? (s : Cells) (h : Handle) : Option Cell := h.bind fun i => s.cells[i]?

theorem reach_parent_lt {s : Cells} {h : Handle} {c : Cell} (hc : s.cell? h = some c) :
    c.parent.reach < h.reach := by
  cases h with
  | none => cases hc
  | some i => exact Nat.lt_succ_of_le (s.ordered i c hc)

/-- The depth kept in the last cell. -/
def length (s : Cells) (h : Handle) : Nat := (s.cell? h).elim 0 Cell.depth

def isEmpty (h : Handle) : Bool := h.isNone

def last? (s : Cells) (h : Handle) : Option String := (s.cell? h).map Cell.entry

def parent? (s : Cells) (h : Handle) : Option Handle := (s.cell? h).map Cell.parent

/-- Makes a new cell, whether or not there is one with the same entry already. A handle that
names no cell has nothing to extend. -/
def child (s : Cells) (h : Handle) (entry : String) : Cells × Handle :=
  if live : h.reach ≤ s.cells.size then
    (⟨s.cells.push ⟨h, entry, s.length h + 1⟩, s.ordered.push live⟩, some s.cells.size)
  else (s, h)

def single (s : Cells) (entry : String) : Cells × Handle := s.child none entry

/-- The entries from the last cell of a path back to the first. -/
def trail (s : Cells) (h : Handle) : List String :=
  match _hc : s.cell? h with
  | none => []
  | some c => c.entry :: s.trail c.parent
termination_by h.reach
decreasing_by exact reach_parent_lt _hc

def entries (s : Cells) (h : Handle) : List String := (s.trail h).reverse

/-- The path a handle stands for. -/
def path (s : Cells) (h : Handle) : NodePath := ⟨s.trail h⟩

/-- Writes an entry with its position; there is a slash before each but the first. -/
def writeEntry (out : String) : String × Nat → String
  | (entry, i) => (if i > 0 then out ++ "/" else out) ++ entry

def render (entries : List String) : String := entries.zipIdx.foldl writeEntry ""

def text (s : Cells) (h : Handle) : String := render (s.entries h)

/-- The text as it is shown for inspection. -/
def inspect (s : Cells) (h : Handle) : String := "NodePath(" ++ s.text h ++ ")"

/-- Whether two handles are one and the same cell; all empty paths are. -/
def same (a b : Handle) : Bool := a == b

/-- Equality of content: the same cell, or cells with the same entry that extend equal paths. -/
def eq (s : Cells) (a b : Handle) : Bool :=
  same a b ||
    match _ha : s.cell? a, s.cell? b with
    | some c, some d => s.eq c.parent d.parent && c.entry == d.entry && c.depth == d.depth
    | _, _ => false
termination_by a.reach
decreasing_by exact reach_parent_lt _ha

end Cells

/-! ### Families -/

/-- An operation that makes a path; `of` is the number of an older one. -/
inductive Op where
  | single (entry : String)
  | child (of : Nat) (entry : String)
  | parent (of : Nat)
deriving DecidableEq

/-- Paths made from one another in one store. -/
structure Family where
  store : Cells
  -- the paths, numbered in the order in which they were made; the empty path is the first
  handles : List Cells.Handle

namespace Family

def start : Family := ⟨.empty, [none]⟩

/-- Adds a path that is kept in a store. -/
def add (f : Family) (made : Cells × Cells.Handle) : Family := ⟨made.1, f.handles ++ [made.2]⟩

/-- The empty path has no parent; there is no path to add then. -/
def step (f : Family) : Op → Family
  | .single entry => f.add (f.store.single entry)
  | .child of entry =>
    match f.handles[of]? with
    | none => f
    | some h => f.add (f.store.child h entry)
  | .parent of =>
    match f.handles[of]?.bind f.store.parent? with
    | none => f
    | some h => f.add (f.store, h)

def run (ops : List Op) : Family := ops.foldl step start

end Family

end NodePath

end FormSchema
