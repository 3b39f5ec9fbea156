import FormSchema.Proofs.Binding.Conformance.Blocks

/-!
# Runs that yield conforming nodes

What a recorded run leaves beneath a node is judged in the tree at the end of the whole run, when
much more has been added elsewhere. Nothing that is added later reaches into what is complete, so
the judgement can be made for every later tree in which the new nodes are settled.

What is claimed of new nodes is therefore quantified over all later trees and records that keep
them. A part of a run hands on such claims to whatever comes after it, and no later proof has to
look back.

* **`Run.Yields`** — a part of a run grows a node by children of some kind, and everything beneath
  the children conforms in every later tree.
* **`Run.Yields.seq`**, **`Run.Yields.ask`**, **`Run.Yields.check_bind`** — parts in sequence.
* **`Planted.yields`** — a new node, and what is grown beneath it.
-/

namespace FormSchema

variable {σ γ α β : Type}

/-! ## Recorded actions

A question is asked at one place, and the record tells which. That the place is the same for all
exchanges of an action is what allows them to be read off the record of a node. -/

/-- A recorded action asks at one place only. The answer and the new exchanges are related. -/
def Tells (place : Scope γ) (action : StateM (σ × List (Exchange γ)) α)
    (Q : α → List (Exchange γ) → Prop) : Prop :=
  ∀ s, ∃ xs, (action s).2.2 = s.2 ++ xs ∧ (∀ x ∈ xs, x.place? = some place) ∧ Q (action s).1 xs

namespace Tells

variable {place : Scope γ} {P : α → List (Exchange γ) → Prop} {Q : β → List (Exchange γ) → Prop}

theorem pure {a : α} (h : P a []) :
    Tells place (pure a : StateM (σ × List (Exchange γ)) α) P := by
  intro s
  refine ⟨[], (List.append_nil _).symm, ?_, h⟩
  intro x hx
  cases hx

theorem bind {x : StateM (σ × List (Exchange γ)) α} {f : α → StateM (σ × List (Exchange γ)) β}
    (hx : Tells place x P)
    (hf : ∀ a xs, P a xs → Tells place (f a) fun b ys => Q b (xs ++ ys)) :
    Tells place (x >>= f) Q := by
  intro s
  obtain ⟨xs, hxs, hplace, hP⟩ := hx s
  obtain ⟨ys, hys, hplace', hQ⟩ := hf _ xs hP (x s).2
  refine ⟨xs ++ ys, ?_, ?_, hQ⟩
  · show (f (x s).1 (x s).2).2.2 = s.2 ++ (xs ++ ys)
    rw [hys, hxs, List.append_assoc]
  · intro y hy
    rcases List.mem_append.mp hy with hfirst | hsecond
    · exact hplace y hfirst
    · exact hplace' y hsecond

theorem imp {action : StateM (σ × List (Exchange γ)) α} {P' : α → List (Exchange γ) → Prop}
    (h : Tells place action P) (himp : ∀ a xs, P a xs → P' a xs) : Tells place action P' := by
  intro s
  obtain ⟨xs, hxs, hplace, hP⟩ := h s
  exact ⟨xs, hxs, hplace, himp _ _ hP⟩

/-- An action asks once, so that all that is told of it is told of the same exchanges. -/
theorem and {action : StateM (σ × List (Exchange γ)) α} {P' : α → List (Exchange γ) → Prop}
    (h : Tells place action P) (h' : Tells place action P') :
    Tells place action fun a xs => P a xs ∧ P' a xs := by
  intro s
  obtain ⟨xs, hxs, hplace, hP⟩ := h s
  obtain ⟨ys, hys, -, hP'⟩ := h' s
  obtain rfl : ys = xs := List.append_cancel_left (hys.symm.trans hxs)
  exact ⟨ys, hxs, hplace, hP, hP'⟩

/-- An action that is noted adds one exchange to the record. -/
theorem noted (action : StateM σ α) {note : α → Exchange γ}
    (h : ∀ a, (note a).place? = some place) :
    Tells place (noted action note) fun a xs => xs = [note a] := by
  intro s
  refine ⟨[note (action s.1).1], rfl, ?_, rfl⟩
  intro x hx
  rw [List.mem_singleton.mp hx]
  exact h _

end Tells

/-! ## Runs

`known` is what must have been asked before: a winner is emitted much later than the questions that
elected it, and they are to be found in the record by then. -/

section Yields

variable (r : Registry) (b : Binder σ γ)

/-- Once `known` has been exchanged, a run that succeeds attaches children to the node `p` and asks
at it as `P` says, in every later tree in which they are settled. There all new nodes conform. -/
def Run.Yields (known : List (Exchange γ))
    (P : OutputTree → List (Exchange γ) → List NodeId → List (Exchange γ) → Prop)
    (m : Run (σ × List (Exchange γ)) Unit) (p : NodeId) : Prop :=
  ∀ s s', m.exec s = (.ok (), s') → p < s.output.size → Fresh s → known ⊆ s.state.2 →
    ∃ ids xs, Grown p s s' ids xs ∧ ∀ tree record, Settled tree record s.output.size s' →
      P tree record ids xs ∧
      ∀ id, s.output.size ≤ id → id < s'.output.size → Conforms r b tree record id

end Yields

namespace Run.Yields

variable {r : Registry} {b : Binder σ γ} {known : List (Exchange γ)} {p : NodeId}
  {P Q W : OutputTree → List (Exchange γ) → List NodeId → List (Exchange γ) → Prop}
  {m m' : Run (σ × List (Exchange γ)) Unit}

theorem imp (h : Yields r b known P m p)
    (himp : ∀ tree record ids xs, P tree record ids xs → Q tree record ids xs) :
    Yields r b known Q m p := by
  intro s s' hrun hp hf hk
  obtain ⟨ids, xs, hgrown, hlater⟩ := h s s' hrun hp hf hk
  refine ⟨ids, xs, hgrown, fun tree record hsettled => ?_⟩
  obtain ⟨hP, hnodes⟩ := hlater tree record hsettled
  exact ⟨himp _ _ _ _ hP, hnodes⟩

theorem pure (h : ∀ tree record, P tree record [] []) : Yields r b known P (pure ()) p := by
  intro s s' hrun _ _ _
  rw [exec_pure] at hrun
  cases hrun
  refine ⟨[], [], .refl p s, fun tree record _ => ⟨h tree record, ?_⟩⟩
  intro id hlo hhi
  exact absurd hhi (Nat.not_lt.mpr hlo)

/-- One part after the other, at the same node. -/
theorem seq (h : Yields r b known P m p) (h' : Yields r b known Q m' p)
    (hw : ∀ tree record ids xs ids' xs', P tree record ids xs → Q tree record ids' xs' →
      W tree record (ids ++ ids') (xs ++ xs')) :
    Yields r b known W (m >>= fun _ => m') p := by
  intro s s'' hrun hp hf hk
  obtain ⟨⟨⟩, s', hfirst, hsecond⟩ := exec_bind_eq_ok_iff.mp hrun
  obtain ⟨ids, xs, hgrown, hlater⟩ := h s s' hfirst hp hf hk
  obtain ⟨ids', xs', hgrown', hlater'⟩ := h' s' s'' hsecond
    (Nat.lt_of_lt_of_le hp hgrown.size) (hgrown.fresh hf)
    (List.Subset.trans hk hgrown.record.subset)
  refine ⟨ids ++ ids', xs ++ xs', hgrown.trans hgrown', fun tree record hsettled => ?_⟩
  -- the first part is settled, because the second one only grows the same older node
  obtain ⟨hP, hnodes⟩ := hlater tree record (hsettled.of_grown hgrown' hp)
  -- the second part starts from a larger tree, and its claim covers the nodes that are new since
  obtain ⟨hQ, hnodes'⟩ := hlater' tree record (hsettled.mono hgrown.size)
  refine ⟨hw _ _ _ _ _ _ hP hQ, fun id hlo hhi => ?_⟩
  rcases Nat.lt_or_ge id s'.output.size with hlt | hge
  · exact hnodes id hlo hlt
  · exact hnodes' id hge hhi

/-- What follows a question knows the answer. -/
theorem ask {place : Scope γ} {action : StateM (σ × List (Exchange γ)) α}
    {A : α → List (Exchange γ) → Prop} {f : α → Run (σ × List (Exchange γ)) Unit}
    (h : Tells place action A)
    (hf : ∀ a xs, A a xs →
      Yields r b xs (fun tree record ids ys => P tree record ids (xs ++ ys)) (f a) place.parent) :
    Yields r b known P (Run.ask action >>= f) place.parent := by
  intro s s'' hrun hp hfresh hk
  obtain ⟨xs, hrecord, hplace, hA⟩ := h s.state
  rw [exec_bind, exec_ask] at hrun
  have hat : ∀ x ∈ xs, x.isAt place.parent = true := fun x hx =>
    Exchange.isAt_of_place? (hplace x hx)
  have hasked : Grown place.parent s ⟨(action s.state).2, s.output⟩ [] xs :=
    .of_asked rfl hrecord hat hp
  have hxs : xs ⊆ (action s.state).2.2 := by
    rw [hrecord]
    exact List.subset_append_right _ _
  obtain ⟨ids, ys, hgrown, hlater⟩ := hf _ xs hA _ s'' hrun hp (hasked.fresh hfresh) hxs
  exact ⟨ids, xs ++ ys, hasked.trans hgrown, hlater⟩

/-- A run that stops yields anything. -/
theorem stop (err : RunError) : Yields r b known P (Run.stop err) p := by
  intro s s' hrun
  rw [exec_stop] at hrun
  cases hrun

theorem stop_bind (err : RunError) (f : α → Run (σ × List (Exchange γ)) Unit) :
    Yields r b known P (Run.stop err >>= f) p := by
  intro s s' hrun
  rw [exec_bind_of_error (exec_stop err s)] at hrun
  cases hrun

theorem check {c : Cardinality} {n : Nat} {kind : DefinitionKind} {label : String}
    {path : NodePath} (h : c.check n = none → ∀ tree record, P tree record [] []) :
    Yields r b known P (Run.check c n kind label path) p := by
  cases hcount : c.check n with
  | none =>
    rw [check_of_none hcount]
    exact pure (h hcount)
  | some v =>
    rw [check_of_some hcount]
    exact stop _

/-- What follows a check knows that the count has passed. -/
theorem check_bind {c : Cardinality} {n : Nat} {kind : DefinitionKind} {label : String}
    {path : NodePath} {f : Unit → Run (σ × List (Exchange γ)) Unit}
    (h : c.check n = none → Yields r b known P (f ()) p) :
    Yields r b known P (Run.check c n kind label path >>= f) p := by
  cases hcount : c.check n with
  | none =>
    rw [check_of_none hcount, pure_bind]
    exact h hcount
  | some v =>
    rw [check_of_some hcount]
    exact stop_bind _ f

end Run.Yields

/-- **A new node and what is grown beneath it.** In every later tree the node is what it was when it
was attached, with the children it has got since. If that makes it conform, then all nodes do that
are new since before it was attached. -/
theorem Planted.yields {r : Registry} {b : Binder σ γ} {p q : NodeId}
    {s s' s'' : Session (σ × List (Exchange γ))} {n : OutputNode} {xs known : List (Exchange γ)}
    {P : OutputTree → List (Exchange γ) → List NodeId → List (Exchange γ) → Prop}
    {S : OutputTree → List (Exchange γ) → Prop}
    {m : Run (σ × List (Exchange γ)) Unit} (hplanted : Planted p s s' q n xs) (hf : Fresh s)
    (hk : known ⊆ s'.state.2) (h : Run.Yields r b known P m q) (hrun : m.exec s' = (.ok (), s''))
    (hdone : ∀ tree record ids, known ⊆ record →
      tree.node? q = some { n with children := ids.toArray } →
      P tree record ids (askedAt record q) → Conforms r b tree record q ∧ S tree record) :
    Grown p s s'' [q] xs ∧ ∀ tree record, Settled tree record s.output.size s'' →
      S tree record ∧
      ∀ id, s.output.size ≤ id → id < s''.output.size → Conforms r b tree record id := by
  have hq : q < s'.output.size := by
    rw [hplanted.size]
    exact Nat.lt_succ_self q
  obtain ⟨ids, ys, hgrown, hlater⟩ := h s' s'' hrun hq (hplanted.grown.fresh hf) hk
  obtain ⟨hall, hnode, hasked⟩ := hplanted.beneath hgrown
  refine ⟨hall, fun tree record hsettled => ?_⟩
  have hlo : s.output.size ≤ q := Nat.le_of_eq hplanted.id.symm
  have hhi : q < s''.output.size := Nat.lt_of_lt_of_le hq hgrown.size
  obtain ⟨hP, hnodes⟩ := hlater tree record (hsettled.mono hplanted.grown.size)
  have hknown : known ⊆ record := fun x hx =>
    hsettled.prefix_record.subset (hgrown.record.subset (hk hx))
  have hself : Conforms r b tree record q ∧ S tree record := by
    apply hdone tree record ids hknown
    · rw [hsettled.node q hlo hhi]
      exact hnode
    · rw [hsettled.asked q hlo hhi, hasked]
      exact hP
  refine ⟨hself.2, fun id hid hid' => ?_⟩
  -- the new node itself, or a node beneath it
  rcases Nat.eq_or_lt_of_le hid with heq | hlt
  · rw [← heq, ← hplanted.id]
    exact hself.1
  · apply hnodes id ?_ hid'
    rw [hplanted.size, hplanted.id]
    exact hlt

end FormSchema
