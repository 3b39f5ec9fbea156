import FormSchema.Proofs.Binding.Growth.Numbering

/-!
# A group is asked for once

To bind a group, the binder is asked for the elements of the group and of its nested groups, and then the only
active alternative is emitted. What was found is passed along and not asked for again. So a binder that would
answer otherwise the next time has no say in what is emitted.

What is found for the elements of a group decides everything else about it. Which alternative is
active, whether there is a conflict and how it is reported, what is checked, and what the nodes are:
all of it is told by the assignment. So this is also the place where it is laid down what a group
comes to, for any assignment that a binder gives.

* **`Engine.build_choice_assigned`** — what a group comes to, for anything that may be found for its elements.
* **`Engine.build_choice_asks_once`** — what is asked for a group, and what is emitted of it.
-/

namespace FormSchema

variable {σ γ : Type}

namespace Engine

/-- **A group is bound by what is found for its alternatives.** Without an active one nothing is emitted, and
the group is checked for being absent. Two or more make a conflict at the path of the group, whatever the
cardinalities are and whatever is the matter within nested groups. Of a single one the group is checked for
being there once, at the path where it stands; then the alternative is checked at the path of the group, and
after that the node of the group is emitted, and beneath it the alternative and the extension points of the
group. What is emitted for a nested group follows the same rule once more.

With the builders of the library the node at which the group is bound grows by some children at the end, and
nothing else of the output changes. If the run goes on, there are none where no alternative is active. Otherwise
there is the node of the group, whose first children stand for the only active alternative: one for every
instance of an element in order, or the node of a nested group of which the same is true. -/
theorem build_choice_assigned (e : Engine σ γ) (entry : Entry σ γ) (c : Choice) (cs : List Definition)
    (A : Assignment γ) (scope : Scope γ) (path : NodePath) (s : Session σ) {t : σ}
    (given : e.binder.AssignsGroup scope cs A s.state t) :
    (A.actives cs = [] →
      (e.build entry (.node (.choice c) cs) scope path).exec s =
        (match c.cardinality.check 0 with
          | none => .ok ()
          | some v => .error (.binding ⟨.count v .choice, path, some c.label⟩),
        { s with state := t })) ∧
    (2 ≤ (A.actives cs).length →
      (e.build entry (.node (.choice c) cs) scope path).exec s =
        (.error (.binding ⟨.conflict, path.child c.label, some c.label⟩), { s with state := t })) ∧
    Fault.conflict.message = "multiple single elements are present" ∧
    (∀ d k, A.actives cs = [(d, k)] →
      (e.build entry (.node (.choice c) cs) scope path).exec s =
        Run.exec (do
          Run.check c.cardinality 1 .choice c.label path
          (A.within k).verdict (path.child c.label) d
          let node ← emit scope .choice (c.id.getD "choice") (.node (.choice c) cs)
          e.present entry d (A.within k) (scope.withParent node) (path.child c.label)
          e.buildExtensions entry cs (scope.withParent node) (path.child c.label))
        { s with state := t }) ∧
    (∀ (A' : Assignment γ) (c' : Choice) (cs' : List Definition) (d : Definition) (k : Nat)
      (scope' : Scope γ) (path' : NodePath), A'.actives cs' = [(d, k)] →
      e.present entry (.node (.choice c') cs') A' scope' path' = (do
        (A'.within k).verdict (path'.child c'.label) d
        let node ← emit scope' .choice (c'.id.getD "choice") (.node (.choice c') cs')
        e.present entry d (A'.within k) (scope'.withParent node) (path'.child c'.label)
        e.buildExtensions entry cs' (scope'.withParent node) (path'.child c'.label))) ∧
    ∀ r limit builders b n, e = equipped r limit builders b → entry = e.follow n →
      scope.parent < s.output.size →
      ∀ result s', (e.build entry (.node (.choice c) cs) scope path).exec s = (result, s') →
        ∃ ids, s.output.Sprouts scope.parent s'.output ids ∧
          (result = .ok () → A.actives cs = [] ∧ ids = [] ∨
            Presented b s'.output scope.form (.node (.choice c) cs) A ids) := by
  have hemission : ∀ r limit builders b n, e = equipped r limit builders b → entry = e.follow n →
      scope.parent < s.output.size →
      ∀ result s', (e.build entry (.node (.choice c) cs) scope path).exec s = (result, s') →
        ∃ ids, s.output.Sprouts scope.parent s'.output ids ∧
          (result = .ok () → A.actives cs = [] ∧ ids = [] ∨
            Presented b s'.output scope.form (.node (.choice c) cs) A ids) := by
    rintro r limit builders b n rfl rfl hp result s' hrun
    obtain ⟨ids, xs, hsprouts, -, hlater⟩ :=
      settled_grows (fun _ _ => perform_grows b.notes_blank n _) given hrun hp
    exact ⟨ids, hsprouts, (hlater s'.output fun _ _ _ => rfl).2⟩
  -- what is left to do depends on how many alternatives are active
  have hsettled := build_choice_settled e entry c cs scope path given
  refine ⟨fun hnone => ?_, fun many => ?_, rfl, fun d k one => ?_,
    fun A' c' cs' d k scope' path' one => present_choice one scope' path', hemission⟩
  · rw [hsettled, settle, hnone]
    dsimp only
    rw [Run.check]
    cases c.cardinality.check 0 <;> rfl
  · rcases hactives : A.actives cs with _ | ⟨x, _ | ⟨y, rest⟩⟩
    · rw [hactives] at many
      cases many
    · rw [hactives] at many
      exact absurd many (by simp)
    · rw [hsettled, settle, hactives]
      rfl
  · rw [hsettled, settle, one]
    dsimp only
    rw [present_choice one]

end Engine

namespace Sample

def transfer : Definition :=
  .node (.choice ⟨some "transfer", .prohibited, .empty⟩)
    [.leaf (.element (item "iban" .optional)), .leaf (.element (item "giro" .prohibited))]

/-- A bill is settled by card or by a transfer to one of two accounts. -/
def settlement : Choice := ⟨some "settlement", .required, .empty⟩

def ways : List Definition := [.leaf (.element (item "card" .required)), transfer]

/-- There is no card, and there are both accounts. -/
def bothAccounts : Assignment String :=
  ⟨fun | [1, 0] => ["account"] | [1, 1] => ["postal", "savings"] | _ => []⟩

def accounts : Binder Unit String :=
  { answers with elements := [("iban", .list ["account"]), ("giro", .list ["postal", "savings"])] }.binder
    fun _ s => s

end Sample

namespace Engine

/-- The bill itself is settled in one way only. It is the transfer that is in conflict, and neither the
cardinality of the transfer nor those of the accounts are looked at. -/
theorem build_choice_assigned_settlement :
    Sample.accounts.AssignsGroup (Scope.top Sample.order "order" OutputTree.root) Sample.ways
      Sample.bothAccounts () () ∧
    Sample.bothAccounts.actives Sample.ways = [(Sample.transfer, 1)] ∧
    ((equipped Sample.orders 1 [] Sample.accounts).build
        ((equipped Sample.orders 1 [] Sample.accounts).follow 1)
        (.node (.choice Sample.settlement) Sample.ways)
        (Scope.top Sample.order "order" OutputTree.root) (.single Sample.order.label)).exec
          ⟨(), start Sample.order⟩ =
      (.error (.binding ⟨.conflict, ((NodePath.single Sample.order.label).child
        "choice[@settlement]").child "choice[@transfer]", some "choice[@transfer]"⟩),
        ⟨(), start Sample.order⟩) := by
  have given : Sample.accounts.AssignsGroup (Scope.top Sample.order "order" OutputTree.root)
      Sample.ways Sample.bothAccounts () () := by
    refine ⟨(), by cbv, (), ⟨(), by cbv, (), by cbv, rfl⟩, rfl⟩
  have one : Sample.bothAccounts.actives Sample.ways = [(Sample.transfer, 1)] := by rfl
  obtain ⟨-, -, -, hone, -⟩ := build_choice_assigned (equipped Sample.orders 1 [] Sample.accounts)
    ((equipped Sample.orders 1 [] Sample.accounts).follow 1) Sample.settlement Sample.ways Sample.bothAccounts (Scope.top Sample.order "order" OutputTree.root)
    (.single Sample.order.label) ⟨(), start Sample.order⟩ given
  exact ⟨given, one, hone _ _ one⟩

end Engine

namespace Engine

/-- **A group is asked for once.** There is an assignment `A` that tells what the binder finds. The binder is
asked for the elements of the group and of its nested groups before anything is attached. This holds with any
builders, and what is left to do depends on the assignment alone.

With the builders of the library, what is asked after that is asked at new nodes, and at the node of a group
only for what the extension points of the group wrap. If the run goes on, there is nothing active and nothing
is emitted, or the node of the group is emitted. Its first children stand for the only active alternative: one
for every instance that was found for an element, in order, or the node of a nested group. All other children
come from the extension points. -/
theorem build_choice_asks_once (r : Registry) (b : Binder σ γ) (c : Choice) (cs : List Definition)
    (scope : Scope γ) (path : NodePath) (s : Session (σ × List (Exchange γ))) :
    ∃ A t, b.recorded.AssignsGroup scope cs A s.state t ∧
      A.Surveys (.node (.choice c) cs) scope s.state.2 t.2 ∧
      (∀ limit builders entry,
        (build ⟨r, limit, builders, b.recorded⟩ entry (.node (.choice c) cs) scope path).exec s =
          (settle ⟨r, limit, builders, b.recorded⟩ entry c cs A scope path).exec ⟨t, s.output⟩) ∧
      ∀ limit builders n result s', scope.parent < s.output.size →
        ((equipped r limit builders b.recorded).build ((equipped r limit builders b.recorded).follow n)
          (.node (.choice c) cs) scope path).exec s = (result, s') →
        ∃ ids xs, s.output.Sprouts scope.parent s'.output ids ∧ s'.state.2 = t.2 ++ xs ∧
          (∀ x ∈ xs, s'.output.AskedBeneath r s.output.size x) ∧
          (result = .ok () → A.actives cs = [] ∧ ids = [] ∨
            Presented b.recorded s'.output scope.form (.node (.choice c) cs) A ids) := by
  obtain ⟨A, t, given⟩ := b.recorded.exists_assigned scope cs s.state
  refine ⟨A, t, given, Binder.Assigns.surveys (d := .node (.choice c) cs) given,
    fun limit builders entry => build_choice_settled _ entry c cs scope path given,
    fun limit builders n result s' hp hrun => ?_⟩
  obtain ⟨ids, xs, hsprouts, hread, hlater⟩ :=
    settled_grows (fun _ _ => perform_grows b.recorded_notes n _) given hrun hp
  -- the tree at the end keeps the new nodes, being the one in which they are new
  obtain ⟨hasked, hdone⟩ := hlater s'.output fun _ _ _ => rfl
  have hrecord : s'.state.2 = t.2 ++ xs.filter fun _ => true := hread
  rw [List.filter_true] at hrecord
  exact ⟨ids, xs, hsprouts, hrecord, hasked, hdone⟩

end Engine

namespace Sample

/-- A binder that counts its questions, and finds something for the second one only. -/
def fickle : Binder Nat String :=
  { answers.binder fun _ n => n with
    bindElement := fun _ _ n => (if n = 1 then ["account"] else [], n + 1) }

end Sample

namespace Engine

/-- There is no card, and the account that was found for the transfer is emitted, though the binder would not
find it again. -/
theorem build_choice_asks_once_fickle :
    ∃ A t s' ids, Sample.orderScope.parent < (start Sample.order).size ∧
      ((equipped Sample.orders 1 [.inline] Sample.fickle.recorded).build
        ((equipped Sample.orders 1 [.inline] Sample.fickle.recorded).follow 1) Sample.payment Sample.orderScope
        (.single Sample.order.label)).exec ⟨(0, []), start Sample.order⟩ = (.ok (), s') ∧
      A.Surveys Sample.payment Sample.orderScope [] t.2 ∧
      t = (2, [.element Sample.orderScope ⟨Sample.item "card" .optional, []⟩ [],
        .element Sample.orderScope ⟨Sample.item "iban" .required, []⟩ ["account"]]) ∧
      A.found [1, 0] = ["account"] ∧
      Presented Sample.fickle.recorded s'.output Sample.order Sample.payment A ids := by
  have hscope : Sample.orderScope.parent < (start Sample.order).size := by decide
  have hok : (((equipped Sample.orders 1 [.inline] Sample.fickle.recorded).build
      ((equipped Sample.orders 1 [.inline] Sample.fickle.recorded).follow 1) Sample.payment Sample.orderScope
      (.single Sample.order.label)).exec ⟨(0, []), start Sample.order⟩).1 = .ok () := by cbv
  generalize hrun : ((equipped Sample.orders 1 [.inline] Sample.fickle.recorded).build
      ((equipped Sample.orders 1 [.inline] Sample.fickle.recorded).follow 1) Sample.payment Sample.orderScope
      (.single Sample.order.label)).exec ⟨(0, []), start Sample.order⟩ = ended at hok ⊢
  obtain ⟨result, s'⟩ := ended
  obtain rfl : result = .ok () := hok
  obtain ⟨A, t, ⟨u, hcard, v, ⟨w, hiban, hw⟩, hv⟩, hsurveys, -, hemission⟩ :=
    build_choice_asks_once Sample.orders Sample.fickle ⟨some "payment", .required, .empty⟩
      Sample.payment.children Sample.orderScope (.single Sample.order.label) ⟨(0, []), start Sample.order⟩
  obtain ⟨ids, -, -, -, -, hdone⟩ := hemission 1 [.inline] 1 _ _ hscope hrun
  -- the answers to the two questions
  obtain rfl : _ = u := congrArg Prod.snd hcard
  obtain rfl : _ = w := congrArg Prod.snd hiban
  have hfound : ["account"] = A.found [1, 0] := congrArg Prod.fst hiban
  obtain rfl : _ = v := (ite_self _).mp hw
  obtain rfl : _ = t := (ite_self _).mp hv
  refine ⟨A, _, s', ids, hscope, rfl, hsurveys, rfl, hfound.symm, ?_⟩
  -- there is an active alternative
  refine (hdone rfl).resolve_left fun hempty => ?_
  have hactive : ((!(A.found [0]).isEmpty) || ((!(A.found [1, 0]).isEmpty || false) || false)) =
      !(A.actives Sample.payment.children).isEmpty :=
    Assignment.active_choice A ⟨some "payment", .required, .empty⟩ Sample.payment.children
  rw [hempty.1, ← hfound] at hactive
  simp at hactive

end Engine

end FormSchema
