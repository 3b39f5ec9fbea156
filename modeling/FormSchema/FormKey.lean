/-!
# Form keys

The identity of a root form: a group, empty when none is given, and an id. Keys are ordered by
group and then by id, each by its characters, which is also the order of their UTF-8 bytes.
-/

namespace FormSchema

/-- The identity of a root form. -/
structure FormKey where
  -- the group; empty when none was given
  group : String
  -- the id within the group
  id : String
deriving DecidableEq, Inhabited

namespace FormKey

/-- The key of an id and an optional group; an absent group is the empty one. -/
def ofGroup (group : Option String) (id : String) : FormKey := ⟨group.getD "", id⟩

def text (k : FormKey) : String := k.group ++ ":" ++ k.id

/-- Whether a key comes before another one: by group, then by id. -/
def before (a b : FormKey) : Bool :=
  a.group < b.group || (a.group == b.group && a.id < b.id)

end FormKey

end FormSchema
