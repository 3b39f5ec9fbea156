import FormSchema.Proofs.Binding.Course.Rules
import FormSchema.Proofs.Binding.Builders.Logs
import FormSchema.Proofs.Binding.Groups.Resolution

/-!
# Histories

Whenever a run comes to an extension point, it calls the builders that apply to its binder, each of them
once and in the order of registration. It comes to extension points among the children of an instance or of
an inlined extension point, of a group after its winner, and of a reference after its target. A builder that
inlines may stop the run, and then no further builder is called.

Which logs there are is laid down by rules, one for every kind of definition and every way in which binding
it may end. The rules for an extension point are the heart of the matter; the others say when there is one.

A history is told without a run: it knows no output but for the nodes that positions have as
parents, and leaves open what the binder answers. It fixes the order in which questions and calls
may follow one another, and where one may come to an end.

* `Task.History` — the logs of definitions, instances and winners, for given builders.
* **`Task.History.numbers_subset`** — no other builders are called.
-/

namespace FormSchema

variable {σ γ : Type}

/-! ## Histories -/

/-- Calls of builders with one extension point. Each of them is followed by the steps that the
builder took. Those that do not inline take none. -/
def Step.calls (point : Definition) (place : Scope γ) (path : NodePath)
    (parts : List ((Contributor × Nat) × List (Step γ))) : List (Step γ) :=
  parts.flatMap fun p => .called p.1.2 point place path :: p.2

namespace Task

/-- The steps that a job may take at a position, `n` levels being left for references. `callees` are the
builders that apply, with their numbers. A history comes to an end with the job done, or with an error. -/
inductive History (k : Task σ γ) (callees : List (Contributor × Nat)) :
    Nat → Job γ → Scope γ → NodePath → List (Step γ) → Option RunError → Prop where
  /- Definitions one after the other. -/
  | nil {n : Nat} {scope : Scope γ} {path : NodePath} :
      History k callees n (.all []) scope path [] none
  | cons {n : Nat} {d : Definition} {ds : List Definition} {scope : Scope γ} {path : NodePath}
      {xs ys : List (Step γ)} {fin : Option RunError}
      (first : History k callees n (.one d) scope path xs none)
      (rest : History k callees n (.all ds) scope path ys fin) :
      History k callees n (.all (d :: ds)) scope path (xs ++ ys) fin
  | halt {n : Nat} {d : Definition} {ds : List Definition} {scope : Scope γ} {path : NodePath}
      {xs : List (Step γ)} {err : RunError}
      (first : History k callees n (.one d) scope path xs (some err)) :
      History k callees n (.all (d :: ds)) scope path xs (some err)
  /- Extension points. Every builder is called, in order, and those that inline bind what is wrapped. The
  others take no steps of their own. -/
  | dispatched {n : Nat} {x : Extension} {cs : List Definition} {scope : Scope γ} {path : NodePath}
      {parts : List ((Contributor × Nat) × List (Step γ))} (everyone : parts.map Prod.fst = callees)
      (inlined : ∀ p ∈ parts, p.1.1 = .library .inline →
        History k callees n (.all cs) scope path p.2 none)
      (others : ∀ p ∈ parts, p.1.1 ≠ .library .inline → p.2 = []) :
      History k callees n (.one (.node (.extension x) cs)) scope path
        (Step.calls (.node (.extension x) cs) scope path parts) none
  | interrupted {n : Nat} {x : Extension} {cs : List Definition} {scope : Scope γ} {path : NodePath}
      {parts : List ((Contributor × Nat) × List (Step γ))} {number : Nat}
      {later : List (Contributor × Nat)} {xs : List (Step γ)} {err : RunError}
      (everyone : parts.map Prod.fst ++ (.library .inline, number) :: later = callees)
      (inlined : ∀ p ∈ parts, p.1.1 = .library .inline →
        History k callees n (.all cs) scope path p.2 none)
      (others : ∀ p ∈ parts, p.1.1 ≠ .library .inline → p.2 = [])
      (stops : History k callees n (.all cs) scope path xs (some err)) :
      History k callees n (.one (.node (.extension x) cs)) scope path
        (Step.calls (.node (.extension x) cs) scope path parts ++
          .called number (.node (.extension x) cs) scope path :: xs) (some err)
  /- Other definitions. -/
  | attributes {n : Nat} {i : Item} {cs : List Definition} {scope : Scope γ} {path : NodePath}
      {found : Option γ} {xs : List (Step γ)} {fin : Option RunError}
      (instances : History k callees n (.shown (.node (.attribute i) cs) found.toList) scope path xs
        fin) :
      History k callees n (.one (.node (.attribute i) cs)) scope path
        (.asked (.attribute scope ⟨i, cs⟩ found) :: xs) fin
  | elements {n : Nat} {i : Item} {cs : List Definition} {scope : Scope γ} {path : NodePath}
      {found : List γ} {xs : List (Step γ)} {fin : Option RunError}
      (instances : History k callees n (.shown (.node (.element i) cs) found) scope path xs fin) :
      History k callees n (.one (.node (.element i) cs)) scope path
        (.asked (.element scope ⟨i, cs⟩ found) :: xs) fin
  | absent {n : Nat} {g : Choice} {cs : List Definition} {scope : Scope γ} {path : NodePath}
      {asked : List (Exchange γ)}
      (asks : ∀ x ∈ asked, (Definition.node (.choice g) cs).Asks k.registry scope x)
      (nothing : givenIn asked = []) :
      History k callees n (.one (.node (.choice g) cs)) scope path (asked.map .asked) none
  | group {n : Nat} {g : Choice} {cs : List Definition} {scope : Scope γ} {path : NodePath}
      {asked : List (Exchange γ)} {index : Nat} {winner : Winner γ} {xs : List (Step γ)}
      {fin : Option RunError}
      (asks : ∀ x ∈ asked, (Definition.node (.choice g) cs).Asks k.registry scope x)
      (given : Won scope asked (.node (.choice g) cs) path (.group (.active index winner)))
      (emission : History k callees n (.won (.node (.choice g) cs) (.group (.active index winner)))
        scope path xs fin) :
      History k callees n (.one (.node (.choice g) cs)) scope path (asked.map .asked ++ xs) fin
  | reference {n : Nat} {ref : Reference} {cs : List Definition} {target : Form} {scope : Scope γ}
      {path : NodePath} {node : NodeId} {answer : Option γ} {xs ys : List (Step γ)}
      {fin : Option RunError} (known : k.registry.get? ref.target = some target)
      (inside : History k callees n (.all target.children)
        (.top target (answer.getD scope.context) node) (path.child ref.label) xs none)
      (extensions : History k callees (n + 1) (.all (Definition.extensions cs)) (scope.withParent node)
        (path.child ref.label) ys fin) :
      History k callees (n + 1) (.one (.node (.reference ref) cs)) scope path
        (.asked (.bound (some scope) target answer) :: (xs ++ ys)) fin
  | referenceHalt {n : Nat} {ref : Reference} {cs : List Definition} {target : Form} {scope : Scope γ}
      {path : NodePath} {node : NodeId} {answer : Option γ} {xs : List (Step γ)} {err : RunError}
      (known : k.registry.get? ref.target = some target)
      (inside : History k callees n (.all target.children)
        (.top target (answer.getD scope.context) node) (path.child ref.label) xs (some err)) :
      History k callees (n + 1) (.one (.node (.reference ref) cs)) scope path
        (.asked (.bound (some scope) target answer) :: xs) (some err)
  | fault {n : Nat} {d : Definition} {scope : Scope γ} {path : NodePath} {asked : List (Exchange γ)}
      {err : RunError} (asks : d.AskedIn k.registry scope asked) (fails : k.FailsAt n d path err) :
      History k callees n (.one d) scope path (asked.map .asked) (some err)
  /- Instances, each of them with all that is beneath its node. -/
  | shownNil {n : Nat} {d : Definition} {scope : Scope γ} {path : NodePath} :
      History k callees n (.shown d []) scope path [] none
  | shownCons {n : Nat} {d : Definition} {found : γ} {rest : List γ} {scope : Scope γ} {path : NodePath}
      {node : NodeId} {st : σ} {xs ys : List (Step γ)} {fin : Option RunError}
      (inside : History k callees n (.all d.children) (scope.descend found node)
        (path.child ((k.binder.describe st found).getD d.label)) xs none)
      (others : History k callees n (.shown d rest) scope path ys fin) :
      History k callees n (.shown d (found :: rest)) scope path (xs ++ ys) fin
  | shownHalt {n : Nat} {d : Definition} {found : γ} {rest : List γ} {scope : Scope γ} {path : NodePath}
      {node : NodeId} {st : σ} {xs : List (Step γ)} {err : RunError}
      (inside : History k callees n (.all d.children) (scope.descend found node)
        (path.child ((k.binder.describe st found).getD d.label)) xs (some err)) :
      History k callees n (.shown d (found :: rest)) scope path xs (some err)
  /- Winners. The extension points of a group follow its winner. -/
  | wonElement {n : Nat} {i : Item} {cs : List Definition} {found : List γ} {scope : Scope γ}
      {path : NodePath} {xs : List (Step γ)} {fin : Option RunError}
      (instances : History k callees n (.shown (.node (.element i) cs) found) scope path xs fin) :
      History k callees n (.won (.node (.element i) cs) (.instances found)) scope path xs fin
  | wonGroup {n : Nat} {g : Choice} {cs : List Definition} {index : Nat} {d : Definition}
      {winner : Winner γ} {scope : Scope γ} {path : NodePath} {node : NodeId} {xs ys : List (Step γ)}
      {fin : Option RunError} (alternative : cs[index]? = some d)
      (inside : History k callees n (.won d winner) (scope.withParent node) (path.child g.label) xs none)
      (extensions : History k callees n (.all (Definition.extensions cs)) (scope.withParent node)
        (path.child g.label) ys fin) :
      History k callees n (.won (.node (.choice g) cs) (.group (.active index winner))) scope path
        (xs ++ ys) fin
  | wonHalt {n : Nat} {g : Choice} {cs : List Definition} {index : Nat} {d : Definition}
      {winner : Winner γ} {scope : Scope γ} {path : NodePath} {node : NodeId} {xs : List (Step γ)}
      {err : RunError} (alternative : cs[index]? = some d)
      (inside : History k callees n (.won d winner) (scope.withParent node) (path.child g.label) xs
        (some err)) :
      History k callees n (.won (.node (.choice g) cs) (.group (.active index winner))) scope path xs
        (some err)
  | wonFault {n : Nat} {g : Choice} {cs : List Definition} {winner : Winner γ} {scope : Scope γ}
      {path : NodePath} {err : RunError} (fails : k.FailsAt n (.node (.choice g) cs) path err) :
      History k callees n (.won (.node (.choice g) cs) winner) scope path [] (some err)

end Task

/-! ## Only builders that apply -/

namespace Step

/-- The builders called at an extension point, and those called while they act, are among some if
the callees of the point are and those of the steps in between. -/
theorem numbers_calls_subset {point : Definition} {place : Scope γ} {path : NodePath}
    {parts : List ((Contributor × Nat) × List (Step γ))} {allowed : List Nat}
    (hcalled : ∀ p ∈ parts, p.1.2 ∈ allowed) (hinside : ∀ p ∈ parts, numbers p.2 ⊆ allowed) :
    numbers (calls point place path parts) ⊆ allowed := by
  induction parts with
  | nil => exact List.nil_subset _
  | cons p parts ih =>
    have hrest := ih (fun q hq => hcalled q (List.mem_cons_of_mem p hq))
      fun q hq => hinside q (List.mem_cons_of_mem p hq)
    have hcalls : calls point place path (p :: parts) =
        .called p.1.2 point place path :: (p.2 ++ calls point place path parts) := rfl
    rw [hcalls, numbers_called, numbers_append]
    refine List.cons_subset.mpr ⟨hcalled p List.mem_cons_self, ?_⟩
    exact List.append_subset.mpr ⟨hinside p List.mem_cons_self, hrest⟩

end Step

/-- **No other builders are called than those that apply.** The induction is over the rules. Only
the two rules for extension points call anybody, and what they call are the callees. -/
theorem Task.History.numbers_subset {k : Task σ γ} {callees : List (Contributor × Nat)} {n : Nat}
    {job : Job γ} {scope : Scope γ} {path : NodePath} {xs : List (Step γ)} {fin : Option RunError}
    (h : k.History callees n job scope path xs fin) :
    Step.numbers xs ⊆ callees.map Prod.snd := by
  have hcallees : ∀ {parts : List ((Contributor × Nat) × List (Step γ))} {rest},
      parts.map Prod.fst ++ rest = callees → ∀ p ∈ parts, p.1.2 ∈ callees.map Prod.snd := by
    rintro parts rest rfl p hp
    exact List.mem_map_of_mem (List.mem_append_left _ (List.mem_map_of_mem hp))
  -- a call that binds nothing has no steps of its own, and one that inlines has those of the
  -- wrapped definitions
  have hparts : ∀ {parts : List ((Contributor × Nat) × List (Step γ))},
      (∀ p ∈ parts, p.1.1 = .library .inline → Step.numbers p.2 ⊆ callees.map Prod.snd) →
      (∀ p ∈ parts, p.1.1 ≠ .library .inline → p.2 = []) →
      ∀ p ∈ parts, Step.numbers p.2 ⊆ callees.map Prod.snd := by
    intro parts hinlined hothers p hp
    by_cases hinline : p.1.1 = .library .inline
    · exact hinlined p hp hinline
    · rw [hothers p hp hinline]
      exact List.nil_subset _
  induction h with
  | nil | shownNil | wonFault => exact List.nil_subset _
  | absent | fault =>
    rw [Step.numbers_map_asked]
    exact List.nil_subset _
  | cons _ _ ih ih' | shownCons _ _ ih ih' | wonGroup _ _ _ ih ih' =>
    rw [Step.numbers_append]
    exact List.append_subset.mpr ⟨ih, ih'⟩
  | reference _ _ _ ih ih' =>
    rw [Step.numbers_asked, Step.numbers_append]
    exact List.append_subset.mpr ⟨ih, ih'⟩
  | attributes _ ih | elements _ ih | referenceHalt _ _ ih =>
    rw [Step.numbers_asked]
    exact ih
  | group _ _ _ ih =>
    rw [Step.numbers_append, Step.numbers_map_asked, List.nil_append]
    exact ih
  | halt _ ih | shownHalt _ ih | wonElement _ ih | wonHalt _ _ ih => exact ih
  | dispatched everyone _ others ih =>
    have hcalled := hcallees ((List.append_nil _).trans everyone)
    exact Step.numbers_calls_subset hcalled (hparts ih others)
  | interrupted everyone _ others _ ih ihstops =>
    rw [Step.numbers_append, Step.numbers_called]
    refine List.append_subset.mpr ⟨?_, List.cons_subset.mpr ⟨?_, ihstops⟩⟩
    · exact Step.numbers_calls_subset (hcallees everyone) (hparts ih others)
    · rw [← everyone, List.map_append]
      exact List.mem_append_right _ List.mem_cons_self

end FormSchema
