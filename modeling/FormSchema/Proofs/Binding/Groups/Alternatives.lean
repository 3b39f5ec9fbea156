import FormSchema.Proofs.Binding.Walk.Equations
import Mathlib

/-!
# One alternative at most

A group is bound by finding out which of its alternatives are active, and then by showing the only one. What
is found for the elements among the alternatives decides everything, at every depth of nested groups: how
many alternatives are active, which of several faults is reported, at which path, and what is emitted.

What is found is given by position, because a binder with a state may answer alike questions differently.

The proofs follow the two halves of the binding of a group. Resolution walks along the alternatives
with a winner or without one, and each of the two situations gets a lemma about the rest of the
list. Emission goes down the only active alternatives, and gets an equation for each group on the
way that mentions neither winners nor outcomes.

* `Assignment` — what is found for every element of a group; `Assignment.actives` counts.
* `Binder.Assigns`, **`Binder.exists_assigned`** — a binder finds some assignment, whatever it does.
* **`Definition.resolve_assigned`** — what resolving a group comes to.
* **`Engine.present_choice`** — what is emitted for a nested group.
-/

namespace FormSchema

variable {σ γ : Type}

/-! ## Assignments -/

/-- What is found for the elements among alternatives. The position of an alternative begins with its
index, and goes on within a nested group. -/
structure Assignment (γ : Type) where
  -- the instances of the element at a position
  found : List Nat → List γ

namespace Assignment

/-- What is found for a definition that is an alternative itself. -/
def here (A : Assignment γ) : List γ := A.found []

/-- What is found within the alternative at an index. -/
def within (A : Assignment γ) (k : Nat) : Assignment γ := ⟨fun position => A.found (k :: position)⟩

mutual

/-- An element is active when instances are found for it, a group when one of its alternatives is active.
Nothing else is an alternative. -/
def active : Definition → Assignment γ → Bool
  | .node (.element _) _, A => !A.here.isEmpty
  | .node (.choice _) cs, A => anyActive cs 0 A
  | .node (.attribute _) _, _ | .node (.reference _) _, _ | .node (.extension _) _, _ => false

/-- Whether one of the alternatives from an index on is active. -/
def anyActive : List Definition → Nat → Assignment γ → Bool
  | [], _, _ => false
  | d :: ds, k, A => active d (A.within k) || anyActive ds (k + 1) A

end

/-- The active ones among alternatives, each with its index. Indices are those of the whole group,
so that a tail of the alternatives starts from its own index. -/
def activesFrom (A : Assignment γ) (k : Nat) (ds : List Definition) : List (Definition × Nat) :=
  (ds.zipIdx k).filter fun x => active x.1 (A.within x.2)

/-- The active alternatives of a group. -/
def actives (A : Assignment γ) (ds : List Definition) : List (Definition × Nat) := A.activesFrom 0 ds

/-- An active alternative is the first of those from its index on. -/
theorem activesFrom_of_active {A : Assignment γ} {k : Nat} {d : Definition}
    (h : active d (A.within k) = true) (ds : List Definition) :
    A.activesFrom k (d :: ds) = (d, k) :: A.activesFrom (k + 1) ds := by
  rw [activesFrom, List.zipIdx_cons, List.filter_cons]
  exact if_pos h

/-- An alternative that is not active does not count. -/
theorem activesFrom_of_inactive {A : Assignment γ} {k : Nat} {d : Definition}
    (h : active d (A.within k) = false) (ds : List Definition) :
    A.activesFrom k (d :: ds) = A.activesFrom (k + 1) ds := by
  rw [activesFrom, List.zipIdx_cons, List.filter_cons]
  exact if_neg (Bool.eq_false_iff.mp h)

/-- Whether an alternative is active from an index on is whether the list of active ones is not
empty. -/
theorem anyActive_eq (A : Assignment γ) (k : Nat) (ds : List Definition) :
    anyActive ds k A = !(A.activesFrom k ds).isEmpty := by
  induction ds generalizing k with
  | nil => rfl
  | cons d ds ih =>
    rw [anyActive, ih]
    cases h : active d (A.within k) with
    | true => rw [activesFrom_of_active h]; rfl
    | false => rw [activesFrom_of_inactive h]; rfl

/-- A group is active exactly when one of its alternatives is. How many of them are active is not
asked until the group has won. -/
theorem active_choice (A : Assignment γ) (c : Choice) (cs : List Definition) :
    active (.node (.choice c) cs) A = !(A.actives cs).isEmpty := by
  rw [active, anyActive_eq, actives]

/-- An active alternative stands at its index. -/
theorem getElem?_of_mem_actives {A : Assignment γ} {ds : List Definition} {d : Definition} {k : Nat}
    (h : (d, k) ∈ A.actives ds) : ds[k]? = some d := by
  exact List.mk_mem_zipIdx_iff_getElem?.mp (List.mem_filter.mp h).1

end Assignment

/-! ## Binders that find an assignment -/

namespace Binder

variable (b : Binder σ γ) (place : Scope γ)

mutual

/-- Asked all that decides whether an alternative is active, the binder finds what is assigned, and
goes from one state to another. The state matters because two questions for the same element, at two
positions, may be answered differently. -/
def Assigns : Definition → Assignment γ → σ → σ → Prop
  | .node (.element i) cs, A, s, t => b.bindElement place ⟨i, cs⟩ s = (A.here, t)
  | .node (.choice _) cs, A, s, t => AssignsFrom cs 0 false A s t
  | .node (.attribute _) _, _, s, t | .node (.reference _) _, _, s, t
  | .node (.extension _) _, _, s, t => s = t

/-- The same for the alternatives from an index on. Once a second one is active, which is the first one
here when `found` says that there was one before, nothing more is asked. -/
def AssignsFrom : List Definition → Nat → Bool → Assignment γ → σ → σ → Prop
  | [], _, _, _, s, t => s = t
  | d :: ds, k, found, A, s, t => ∃ u, Assigns d (A.within k) s u ∧
      if found && Assignment.active d (A.within k) then u = t
      else AssignsFrom ds (k + 1) (found || Assignment.active d (A.within k)) A u t

end

/-- Asked for the alternatives of a group, the binder finds what is assigned. -/
def AssignsGroup (cs : List Definition) (A : Assignment γ) (s t : σ) : Prop :=
  b.AssignsFrom place cs 0 false A s t

variable {b place}

/-- What is assigned before an index does not matter from there on. -/
theorem AssignsFrom.congr {ds : List Definition} {k : Nat} {found : Bool} {A A' : Assignment γ} {s t : σ}
    (hA : ∀ j, k ≤ j → A'.within j = A.within j) (h : b.AssignsFrom place ds k found A s t) :
    b.AssignsFrom place ds k found A' s t := by
  induction ds generalizing k found s with
  | nil => exact h
  | cons d ds ih =>
    rw [AssignsFrom] at h ⊢
    rw [hA k (Nat.le_refl k)]
    obtain ⟨u, hd, hrest⟩ := h
    refine ⟨u, hd, ?_⟩
    split
    · next hstop => rwa [if_pos hstop] at hrest
    · next hstop =>
      rw [if_neg hstop] at hrest
      exact ih (fun j hj => hA j (Nat.le_of_succ_le hj)) hrest

/-- Something is found for the alternatives from an index on, if it is for each of them. -/
theorem exists_assignsFrom {ds : List Definition}
    (h : ∀ d ∈ ds, ∀ s, ∃ A t, b.Assigns place d A s t) (k : Nat) (found : Bool) (s : σ) :
    ∃ A t, b.AssignsFrom place ds k found A s t := by
  induction ds generalizing k found s with
  | nil => exact ⟨⟨fun _ => []⟩, s, rfl⟩
  | cons d ds ih =>
    obtain ⟨hd, hds⟩ := List.forall_mem_cons.mp h
    obtain ⟨first, u, hfirst⟩ := hd s
    obtain ⟨rest, t, hrest⟩ := ih hds (k + 1) (found || Assignment.active d first) u
    -- what is found for the first alternative and what is found for the rest are joined by the
    -- index, which keeps them apart
    let A : Assignment γ := ⟨fun position =>
      if position.head? = some k then first.found position.tail else rest.found position⟩
    have hhere : A.within k = first := by
      simp [A, Assignment.within]
    have hlater : ∀ j, k + 1 ≤ j → A.within j = rest.within j := by
      intro j hj
      have hne : j ≠ k := by omega
      simp [A, Assignment.within, hne]
    by_cases hstop : (found && Assignment.active d first) = true
    · refine ⟨A, u, u, ?_, ?_⟩
      · rwa [hhere]
      · rw [hhere, if_pos hstop]
    · refine ⟨A, t, u, ?_, ?_⟩
      · rwa [hhere]
      · rw [hhere, if_neg hstop]
        exact hrest.congr hlater

/-- For every definition there is an assignment that tells what the binder finds for it. It is put
together from what is found for its alternatives, by induction on the tree. -/
theorem exists_assigns (d : Definition) (s : σ) : ∃ A t, b.Assigns place d A s t := by
  induction d using Definition.induct generalizing s with
  | node head cs ih =>
    match head with
    | .element i =>
      exact ⟨⟨fun _ => (b.bindElement place ⟨i, cs⟩ s).1⟩, (b.bindElement place ⟨i, cs⟩ s).2, rfl⟩
    | .choice c => exact exists_assignsFrom ih 0 false s
    | .attribute _ | .reference _ | .extension _ => exact ⟨⟨fun _ => []⟩, s, rfl⟩

/-- **A binder finds some assignment.** Whatever it answers, and however its answers change, there
is an assignment that tells what it finds for a group. So what is proved of binders that find an
assignment is proved of all of them. -/
theorem exists_assigned (b : Binder σ γ) (place : Scope γ) (cs : List Definition) (s : σ) :
    ∃ A t, b.AssignsGroup place cs A s t :=
  exists_assignsFrom (fun d _ => exists_assigns d) 0 false s

end Binder

/-! ## Resolution -/

/-- What resolution says of an alternative that is active. The path is that of its group. A nested
group with several active alternatives wins as well: its conflict is the winner that is handed on,
and is reported only if the group is emitted. -/
inductive Crowned : Assignment γ → Definition → NodePath → Winner γ → Prop where
  | element {A : Assignment γ} {i : Item} {cs : List Definition} {path : NodePath} :
      Crowned A (.node (.element i) cs) path (.instances A.here)
  | group {A : Assignment γ} {c : Choice} {cs : List Definition} {path : NodePath} {d : Definition}
      {k : Nat} {w : Winner γ} (one : A.actives cs = [(d, k)])
      (inner : Crowned (A.within k) d (path.child c.label) w) :
      Crowned A (.node (.choice c) cs) path (.group (.active k w))
  | conflict {A : Assignment γ} {c : Choice} {cs : List Definition} {path : NodePath}
      (many : 2 ≤ (A.actives cs).length) :
      Crowned A (.node (.choice c) cs) path
        (.group (.conflict (conflictAt c.label (path.child c.label))))

/-- What resolution says of an alternative. -/
def Crowned? (A : Assignment γ) (d : Definition) (path : NodePath) : Option (Winner γ) → Prop
  | none => Assignment.active d A = false
  | some w => Assignment.active d A = true ∧ Crowned A d path w

/-- What resolution comes to when some alternatives are active. -/
inductive Settles (A : Assignment γ) (label : String) (path : NodePath) :
    List (Definition × Nat) → Outcome γ → Prop where
  | absent : Settles A label path [] .absent
  | active {d : Definition} {k : Nat} {w : Winner γ} (crowned : Crowned (A.within k) d path w) :
      Settles A label path [(d, k)] (.active k w)
  | conflict {x y : Definition × Nat} {rest : List (Definition × Nat)} :
      Settles A label path (x :: y :: rest) (.conflict (conflictAt label path))

namespace Definition

variable {b : Binder σ γ} {place : Scope γ} {label : String} {path : NodePath}

/-- Every candidate is judged as its assignment says, and the binder's state changes accordingly.
The assignment, the states and the path are arbitrary, because the induction needs it of
alternatives further down. -/
def Judged (b : Binder σ γ) (place : Scope γ) (path : NodePath) (d : Definition) : Prop :=
  ∀ A s t, b.Assigns place d A s t → ∃ w, d.candidate b place path s = (w, t) ∧ Crowned? A d path w

theorem bind_of_eq {α β : Type} {x : StateM σ α} {s t : σ} {a : α} (h : x s = (a, t))
    (f : α → StateM σ β) : (x >>= f) s = f a t := by
  show f (x s).1 (x s).2 = f a t
  rw [h]

/-- After a winner an active alternative makes a conflict, and ends the resolution. The first
winner is kept as it is, also while nothing else turns out to be active. -/
theorem resolve_after_assigned {ds : List Definition} (judged : ∀ d ∈ ds, Judged b place path d)
    {A : Assignment γ} {k first : Nat} {winner : Winner γ} {s t : σ}
    (given : b.AssignsFrom place ds k true A s t) :
    resolve b place label ds k (some (first, winner)) path s =
      (if (A.activesFrom k ds).isEmpty then .active first winner
        else .conflict (conflictAt label path), t) := by
  induction ds generalizing k s with
  | nil =>
    obtain rfl : s = t := given
    rfl
  | cons d ds ih =>
    obtain ⟨hd, hds⟩ := List.forall_mem_cons.mp judged
    obtain ⟨u, hgiven, hrest⟩ := given
    obtain ⟨w, hw, hcrowned⟩ := hd _ _ _ hgiven
    rw [resolve, bind_of_eq hw]
    cases w with
    | none =>
      rw [show Assignment.active d (A.within k) = false from hcrowned] at hrest
      rw [Assignment.activesFrom_of_inactive hcrowned]
      -- the winner is handed on as it is
      exact ih hds hrest
    | some w =>
      -- two are active now, and the binder is not asked any further
      rw [hcrowned.1, Bool.and_self, if_pos rfl] at hrest
      rw [Assignment.activesFrom_of_active hcrowned.1, ← hrest]
      rfl

/-- Before there is a winner the alternatives from an index on settle the group. The first active
alternative that is met becomes the winner, and from there on the preceding lemma applies. -/
theorem resolve_from_assigned {ds : List Definition} (judged : ∀ d ∈ ds, Judged b place path d)
    {A : Assignment γ} {k : Nat} {s t : σ} (given : b.AssignsFrom place ds k false A s t) :
    ∃ outcome, resolve b place label ds k none path s = (outcome, t) ∧
      Settles A label path (A.activesFrom k ds) outcome := by
  induction ds generalizing k s with
  | nil =>
    obtain rfl : s = t := given
    exact ⟨_, rfl, .absent⟩
  | cons d ds ih =>
    obtain ⟨hd, hds⟩ := List.forall_mem_cons.mp judged
    obtain ⟨u, hgiven, hrest⟩ := given
    obtain ⟨w, hw, hcrowned⟩ := hd _ _ _ hgiven
    rw [resolve, bind_of_eq hw]
    cases w with
    -- not active: passed over by the loop, and left out of the list of active ones
    | none =>
      rw [show Assignment.active d (A.within k) = false from hcrowned] at hrest
      rw [Assignment.activesFrom_of_inactive hcrowned]
      exact ih hds hrest
    | some w =>
      obtain ⟨hactive, hcrowned⟩ := hcrowned
      rw [hactive] at hrest
      rw [Assignment.activesFrom_of_active hactive]
      refine ⟨_, resolve_after_assigned hds hrest, ?_⟩
      cases A.activesFrom (k + 1) ds with
      | nil => exact .active hcrowned
      | cons y rest => exact .conflict

/-- Judging a candidate comes to what is assigned to it. For a group the induction hypothesis
judges the alternatives, and what they settle is then compared with what is active. -/
theorem judged (d : Definition) : Judged b place path d := by
  induction d using Definition.induct generalizing path with
  | node head cs ih =>
    intro A s t given
    match head with
    | .element i =>
      have hfound : b.bindElement place ⟨i, cs⟩ s = (A.here, t) := given
      rw [candidate, bind_of_eq hfound]
      refine ⟨_, rfl, ?_⟩
      cases hempty : A.here.isEmpty with
      | true =>
        show Assignment.active _ A = false
        rw [Assignment.active, hempty]
        rfl
      | false =>
        refine ⟨?_, .element⟩
        rw [Assignment.active, hempty]
        rfl
    | .choice c =>
      obtain ⟨outcome, hresolve, hsettles⟩ : ∃ outcome,
          resolve b place c.label cs 0 none (path.child c.label) s = (outcome, t) ∧
            Settles A c.label (path.child c.label) (A.activesFrom 0 cs) outcome :=
        resolve_from_assigned (fun d hd => ih d hd) given
      rw [candidate, bind_of_eq hresolve]
      have hactive := Assignment.active_choice A c cs
      rw [← Assignment.actives] at hsettles
      -- the number of active alternatives decides which case of the outcome it is
      generalize hactives : A.actives cs = actives at hsettles hactive
      cases hsettles with
      | absent => exact ⟨_, rfl, hactive⟩
      | active crowned => exact ⟨_, rfl, hactive, .group hactives crowned⟩
      | conflict => exact ⟨_, rfl, hactive, .conflict (by rw [hactives]; simp)⟩
    | .attribute _ | .reference _ | .extension _ =>
      obtain rfl : s = t := given
      exact ⟨none, rfl, rfl⟩

/-- **Resolution counts what is active.** None is absent, one becomes the winner with its own
resolution, and with two the group is in conflict. -/
theorem resolve_assigned {cs : List Definition} {A : Assignment γ} {s t : σ}
    (given : b.AssignsGroup place cs A s t) :
    ∃ outcome, resolve b place label cs 0 none path s = (outcome, t) ∧
      Settles A label path (A.actives cs) outcome :=
  resolve_from_assigned (fun d _ => judged d) given

end Definition

/-! ## Emission -/

namespace Assignment

/-- What the only active alternative of a group is checked for, at the path of the group: an
element for the number of its instances, a nested group for a conflict of its own and else for being
there once. It is the check that is made before the node of the alternative is emitted, so that a
group which fails leaves no node of its alternative behind. -/
def verdict (A : Assignment γ) (path : NodePath) : Definition → Run σ Unit
  | .node (.element i) _ => Run.check i.cardinality A.here.length .element i.elementLabel path
  | .node (.choice c) cs =>
    if 2 ≤ (A.actives cs).length then Run.stop (.binding (conflictAt c.label (path.child c.label)))
    else Run.check c.cardinality 1 .choice c.label path
  | .node (.attribute _) _ | .node (.reference _) _ | .node (.extension _) _ => pure ()

end Assignment

namespace Engine

mutual

/-- Emits the only active alternative of a group, at the path of the group: the instances of an element, or
a nested group of which one alternative is active. That alternative is checked, the node of the nested
group is emitted, and beneath it the alternative and then the extension points of the nested group. -/
def present (e : Engine σ γ) (entry : Entry σ γ) :
    Definition → Assignment γ → Scope γ → NodePath → Run σ Unit
  | .node (.element i) cs, A, scope, path =>
    A.here.forM (e.emitInstance .element (i.nodeName "element") (.node (.element i) cs) scope path
      (buildAll e entry cs))
  | .node (.choice c) cs, A, scope, path =>
    let inner := path.child c.label
    match A.actives cs with
    | [(d, k)] => do
      (A.within k).verdict inner d
      let node ← emit scope .choice (c.id.getD "choice") (.node (.choice c) cs)
      presentAt e entry cs k (A.within k) (scope.withParent node) inner
      buildExtensions e entry cs (scope.withParent node) inner
    | _ => pure ()
  | .node (.attribute _) _, _, _, _ | .node (.reference _) _, _, _, _
  | .node (.extension _) _, _, _, _ => pure ()

/-- Emits the alternative at an index. -/
def presentAt (e : Engine σ γ) (entry : Entry σ γ) :
    List Definition → Nat → Assignment γ → Scope γ → NodePath → Run σ Unit
  | [], _, _, _, _ => pure ()
  | d :: _, 0, A, scope, path => present e entry d A scope path
  | _ :: ds, k + 1, A, scope, path => presentAt e entry ds k A scope path

end

variable {e : Engine σ γ} {entry : Entry σ γ}

/-- The alternative at an index is presented as it would be alone. -/
theorem presentAt_eq {cs : List Definition} {d : Definition} {k : Nat} (h : cs[k]? = some d)
    (A : Assignment γ) (scope : Scope γ) (path : NodePath) :
    e.presentAt entry cs k A scope path = e.present entry d A scope path := by
  induction cs generalizing k with
  | nil => cases h
  | cons c cs ih =>
    cases k with
    | zero =>
      obtain rfl : c = d := Option.some.inj h
      rw [presentAt]
    | succ k => exact ih h

/-- **A nested group** is emitted as any other one. Its own alternative is judged before its node
is emitted, and its extension points come last. -/
theorem present_choice {A : Assignment γ} {c : Choice} {cs : List Definition} {d : Definition} {k : Nat}
    (one : A.actives cs = [(d, k)]) (scope : Scope γ) (path : NodePath) :
    e.present entry (.node (.choice c) cs) A scope path = (do
      (A.within k).verdict (path.child c.label) d
      let node ← emit scope .choice (c.id.getD "choice") (.node (.choice c) cs)
      e.present entry d (A.within k) (scope.withParent node) (path.child c.label)
      e.buildExtensions entry cs (scope.withParent node) (path.child c.label)) := by
  have hget : cs[k]? = some d :=
    Assignment.getElem?_of_mem_actives (one ▸ List.mem_singleton.mpr rfl)
  rw [present, one]
  simp only [presentAt_eq hget]

/-- A winner is checked as the assignment tells: the number of its instances, a conflict within it,
or its being there. -/
theorem checkWinner_crowned {A : Assignment γ} {d : Definition} {path : NodePath} {w : Winner γ}
    (h : Crowned A d path w) :
    (checkWinner path (some d) w : Run σ Unit) = A.verdict path d := by
  cases h with
  | element => rfl
  | group one inner =>
    rw [Assignment.verdict, one, if_neg (by simp)]
    rfl
  | conflict many =>
    rw [Assignment.verdict, if_pos many]
    rfl

/-- A winner is emitted as what is assigned says. The induction is on how the winner came about,
which goes down one nested group at a time. -/
theorem emitWinner_crowned {A : Assignment γ} {d : Definition} {path : NodePath} {w : Winner γ}
    (h : Crowned A d path w) (scope : Scope γ) :
    e.emitWinner entry d w scope path = e.present entry d A scope path := by
  induction h generalizing scope with
  | element =>
    rw [present]
    rfl
  | @group A c cs path d k w one inner ih =>
    have hget : cs[k]? = some d :=
      Assignment.getElem?_of_mem_actives (one ▸ List.mem_singleton.mpr rfl)
    rw [present_choice one, emitWinner, emitAlternative]
    show emitGroup (.node (.choice c) cs) c k w scope (path.child c.label) _ _ = _
    rw [emitGroup]
    simp only [Definition.children, hget, checkWinner_crowned inner, emitAlternative_eq, ih]
  | @conflict A c cs path many =>
    rw [present]
    -- not the case with a single active alternative
    split
    · next one =>
      rw [one] at many
      simp at many
    · rfl

end Engine

end FormSchema
