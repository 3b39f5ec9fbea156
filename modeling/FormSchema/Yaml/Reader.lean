import FormSchema.Yaml.Lexer
import FormSchema.Yaml.Value

/-!
# Reading YAML

`Yaml.tree?` reads a text that holds at most one document. An alias is replaced by the last node
that has the number of its anchor. Collections may be nested up to a limit, where those inside an
alias count as well, and aliases may be followed only so often, in proportion to the text.
-/

namespace FormSchema.Yaml

/-! ### Anchored nodes -/

mutual

/-- The nodes that have an anchor, each before those inside it. -/
def Node.anchored : Node → List (Nat × Node)
  | .scalar anchor s => anchor.toList.map (·, .scalar anchor s)
  | .sequence p items => p.anchor.toList.map (·, .sequence p items) ++ anchoredAll items
  | .mapping p entries => p.anchor.toList.map (·, .mapping p entries) ++ anchoredEntries entries
  | .alias _ => []

def anchoredAll : List Node → List (Nat × Node)
  | [] => []
  | n :: ns => n.anchored ++ anchoredAll ns

def anchoredEntries : List (Node × Node) → List (Nat × Node)
  | [] => []
  | (k, v) :: ns => k.anchored ++ v.anchored ++ anchoredEntries ns

end

/-! ### Size -/

mutual

/-- The size of a node: a collection counts two and what it holds, anything else counts one. -/
def Node.size : Node → Nat
  | .scalar _ _ | .alias _ => 1
  | .sequence _ items => 2 + sizeAll items
  | .mapping _ entries => 2 + sizeEntries entries

def sizeAll : List Node → Nat
  | [] => 0
  | n :: ns => n.size + sizeAll ns

def sizeEntries : List (Node × Node) → Nat
  | [] => 0
  | (k, v) :: ns => k.size + v.size + sizeEntries ns

end

/-! ### Following aliases -/

def nestingLimit : Nat := 128

def followLimit : Nat := 100

abbrev Follower := StateT Nat Option

/-- The node itself, or what it leads to. -/
def Node.target (anchored : List (Nat × Node)) : Node → Follower Node
  | .alias number => do
    let left ← get
    if left = 0 then failure
    set (left - 1)
    match anchored.lookup number with
    | some node => return node
    | none => failure
  | node => return node

def checkTag (p : Properties) : Follower Unit := if p.tag.any isPrivate then failure else pure ()

/-- The tree of a node whose collections are nested up to a limit. -/
def Node.tree (anchored : List (Nat × Node)) (levels : Nat) (node : Node) : Follower Tree := do
  match ← node.target anchored with
  | .scalar _ s => return .scalar s
  | .alias _ => failure
  | .sequence p items =>
    checkTag p
    match levels with
    | 0 => failure
    | levels + 1 => return .sequence (← items.mapM (tree anchored levels))
  | .mapping p entries =>
    checkTag p
    match levels with
    | 0 => failure
    | levels + 1 => return .mapping (← entries.mapM fun (k, v) => do
        return (← tree anchored levels k, ← tree anchored levels v))

def Node.tree? (node : Node) : Option Tree :=
  ((node.tree node.anchored.reverse nestingLimit).run (followLimit * node.size)).map Prod.fst

/-- The tree of a text; a text without a document is an empty scalar. -/
def tree? (text : String) : Option Tree := do
  match ← Node.ofTokens? (← tokens? text) with
  | none => some (.scalar .empty)
  | some node => node.tree?

end FormSchema.Yaml
