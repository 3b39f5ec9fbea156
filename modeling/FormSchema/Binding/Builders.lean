import FormSchema.Binding.Engine

/-!
# Builders

The two builders of the library. One leaves a comment at every extension point; the other binds
what the extension point wraps as if it stood in its place.
-/

namespace FormSchema

namespace Builder

variable {σ γ : Type}

/-- Whether a binder kind is among `kinds`; without kinds every one is. -/
def appliesTo (kinds : List String) (kind : String) : Bool := kinds.isEmpty || kinds.contains kind

/-- Adds a comment that holds the representation and the attributes of the extension point. It
applies to the given kinds of binder, or to all when none is given. -/
def comment (kinds : List String) : Builder σ γ where
  compatible := appliesTo kinds
  build site := do
    let node ← Run.attach site.scope.parent .comment "comment"
    Run.edit fun t => t.setValue node site.point.representation
    Run.edit fun t => t.copyAttributes node site.point.attributes
    Run.edit fun t => t.setOrigin node ⟨site.scope.form, .definition site.definition⟩

/-- Binds the wrapped definitions in their order, at the position of the extension point. -/
def inline : Builder σ γ where
  compatible _ := true
  build site := site.wrapped.forM fun w => w.build site.scope site.path

end Builder

end FormSchema
