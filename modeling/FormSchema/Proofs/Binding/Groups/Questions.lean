import FormSchema.Proofs.Binding.Groups.Alternatives
import FormSchema.Proofs.Binding.Course.Rules
import FormSchema.Proofs.Binding.Groups.Resolution

/-!
# What is asked for a group

To find out which alternative of a group is active, the binder is asked for the elements among the
alternatives, and for those within nested groups, in the order of declaration. A group that turns out to be
in conflict asks no further, but the groups around it go on.

The questions for a group are stated by what is found, since each answer may decide whether the next
question is asked at all. First the questions are defined by recursion along with the assignment.
Then it is shown that this recursion describes a sublist of the elements of the group, and which
elements are missing from it. Last comes that a binder which finds the assignment is asked in just
this way; that needs no more than that the binder notes what it is asked.

* `Definition.contenders` — the elements that may be asked for, each at its position.
* `Assignment.asked` — those that are asked for, given what is found.
* **`Assignment.mem_asked_iff`** — they are all but those that stand behind a conflict.
* **`Binder.Assigns.noted`** — what the binder notes while a group is resolved.
* `Assignment.Surveys`, **`Definition.resolve_surveys`** — a group is resolved by such questions.
-/

namespace FormSchema

variable {σ γ : Type}

/-! ## Elements of a group -/

namespace Definition

mutual

/-- The elements that an alternative may be asked for, with their positions: an element itself, and the
elements of a group with those of its nested groups, in the order of declaration. -/
def contenders : Definition → List (List Nat × ItemDefinition)
  | .node (.element i) cs => [([], ⟨i, cs⟩)]
  | .node (.choice _) cs => contendersFrom cs 0
  | .node (.attribute _) _ | .node (.reference _) _ | .node (.extension _) _ => []

def contendersFrom : List Definition → Nat → List (List Nat × ItemDefinition)
  | [], _ => []
  | d :: ds, k => d.contenders.map (Prod.map (k :: ·) id) ++ contendersFrom ds (k + 1)

end

/-- A contender among alternatives is a contender of one of them, and its position begins with the
index of that one. -/
theorem mem_contendersFrom {ds : List Definition} {k : Nat} {x : List Nat × ItemDefinition} :
    x ∈ contendersFrom ds k ↔
      ∃ j d y, ds[j]? = some d ∧ y ∈ d.contenders ∧ x = Prod.map ((k + j) :: ·) id y := by
  induction ds generalizing k with
  | nil =>
    refine ⟨fun h => (nomatch h), fun ⟨j, d, y, hd, _⟩ => (by cases hd)⟩
  | cons d ds ih =>
    rw [contendersFrom, List.mem_append, List.mem_map, ih]
    constructor
    · rintro (⟨y, hy, rfl⟩ | ⟨j, d', y, hd, hy, rfl⟩)
      · exact ⟨0, d, y, rfl, hy, rfl⟩
      · exact ⟨j + 1, d', y, hd, hy, by rw [Nat.add_right_comm, Nat.add_assoc]⟩
    · rintro ⟨_ | j, d', y, hd, hy, rfl⟩
      · obtain rfl : d = d' := Option.some.inj hd
        exact Or.inl ⟨y, hy, rfl⟩
      · exact Or.inr ⟨j, d', y, hd, hy, by rw [Nat.add_right_comm, Nat.add_assoc]⟩

/-- Different elements have different positions. They differ within an alternative by assumption,
and between two alternatives in their first entry. -/
theorem nodup_contendersFrom {ds : List Definition} (h : ∀ d ∈ ds, (d.contenders.map Prod.fst).Nodup)
    (k : Nat) : ((contendersFrom ds k).map Prod.fst).Nodup := by
  induction ds generalizing k with
  | nil => exact List.nodup_nil
  | cons d ds ih =>
    obtain ⟨hd, hds⟩ := List.forall_mem_cons.mp h
    rw [contendersFrom, List.map_append, List.map_map]
    have hfirst : (d.contenders.map (Prod.fst ∘ Prod.map (k :: ·) id)).Nodup := by
      have hcons : (Prod.fst ∘ Prod.map (k :: ·) id : List Nat × ItemDefinition → List Nat) =
          (k :: ·) ∘ Prod.fst := rfl
      rw [hcons, ← List.map_map]
      exact hd.map List.cons_injective
    refine hfirst.append (ih hds (k + 1)) ?_
    -- the positions within `d` begin with `k`, the others with a greater index
    intro position hposition hlater
    obtain ⟨x, -, rfl⟩ := List.mem_map.mp hposition
    obtain ⟨y, hy, heq⟩ := List.mem_map.mp hlater
    obtain ⟨j, d', z, -, -, rfl⟩ := mem_contendersFrom.mp hy
    have hhead : k + 1 + j = k := congrArg (fun p : List Nat => p.headD 0) heq
    omega

/-- Different elements of a definition have different positions, at any depth of nested groups. -/
theorem nodup_contenders (d : Definition) : (d.contenders.map Prod.fst).Nodup := by
  induction d using Definition.induct with
  | node head cs ih =>
    match head with
    | .element _ => exact List.nodup_singleton _
    | .choice _ => exact nodup_contendersFrom ih 0
    | .attribute _ | .reference _ | .extension _ => exact List.nodup_nil

end Definition

/-! ## Questions -/

namespace Assignment

mutual

/-- The elements that an alternative is asked for, given what is found for them. -/
def asked : Definition → Assignment γ → List (List Nat × ItemDefinition)
  | .node (.element i) cs, _ => [([], ⟨i, cs⟩)]
  | .node (.choice _) cs, A => askedFrom cs 0 false A
  | .node (.attribute _) _, _ | .node (.reference _) _, _ | .node (.extension _) _, _ => []

/-- The same for alternatives from an index on. After a second active one, which is the first one here when
`found` says that there was one before, none is asked for. -/
def askedFrom : List Definition → Nat → Bool → Assignment γ → List (List Nat × ItemDefinition)
  | [], _, _, _ => []
  | d :: ds, k, found, A =>
    (asked d (A.within k)).map (Prod.map (k :: ·) id) ++
      if found && active d (A.within k) then []
      else askedFrom ds (k + 1) (found || active d (A.within k)) A

end

/-- An alternative stands behind a conflict: in the group, or in a nested one, two alternatives
before it are active. The same alternative may stand behind conflicts at several depths. -/
inductive Barred : Assignment γ → Definition → List Nat → Prop where
  | here {A : Assignment γ} {c : Choice} {cs : List Definition} {x y : Definition × Nat}
      {rest : List (Definition × Nat)} {k : Nat} {position : List Nat}
      (conflict : A.actives cs = x :: y :: rest) (behind : y.2 < k) :
      Barred A (.node (.choice c) cs) (k :: position)
  | nested {A : Assignment γ} {c : Choice} {cs : List Definition} {d : Definition} {k : Nat}
      {position : List Nat} (alternative : cs[k]? = some d) (inner : Barred (A.within k) d position) :
      Barred A (.node (.choice c) cs) (k :: position)

/-- The group or one of its nested groups is in conflict. -/
inductive Clashes : Assignment γ → Definition → Prop where
  | here {A : Assignment γ} {c : Choice} {cs : List Definition} (many : 2 ≤ (A.actives cs).length) :
      Clashes A (.node (.choice c) cs)
  | nested {A : Assignment γ} {c : Choice} {cs : List Definition} {d : Definition} {k : Nat}
      (alternative : cs[k]? = some d) (inner : Clashes (A.within k) d) :
      Clashes A (.node (.choice c) cs)

/-- Only a conflict bars an alternative. -/
theorem Barred.clashes {A : Assignment γ} {d : Definition} {position : List Nat}
    (h : A.Barred d position) : A.Clashes d := by
  induction h with
  | here conflict _ => exact .here (by rw [conflict]; simp)
  | nested alternative _ ih => exact .nested alternative ih

/-- The last alternative from an index on that is asked for anything, if one of them is the last.
Without an earlier active alternative this is the second active one, and with one it is the first. -/
def last? (A : Assignment γ) (ds : List Definition) (k : Nat) (found : Bool) : Option (Definition × Nat) :=
  if found then (A.activesFrom k ds).head? else (A.activesFrom k ds).tail.head?

theorem le_of_mem_activesFrom {A : Assignment γ} {k : Nat} {ds : List Definition} {x : Definition × Nat}
    (h : x ∈ A.activesFrom k ds) : k ≤ x.2 :=
  List.le_snd_of_mem_zipIdx (List.mem_filter.mp h).1

/-- The last alternative does not stand before the index from which on it is looked for. -/
theorem le_of_last? {A : Assignment γ} {k : Nat} {ds : List Definition} {found : Bool}
    {x : Definition × Nat} (h : A.last? ds k found = some x) : k ≤ x.2 := by
  have hmem : x ∈ A.activesFrom k ds := by
    cases found with
    | true => exact List.mem_of_head? h
    | false => exact List.mem_of_mem_tail (List.mem_of_head? h)
  exact le_of_mem_activesFrom hmem

/-- The alternatives from an index on are asked for up to the last one. -/
theorem mem_askedFrom {ds : List Definition} {A : Assignment γ} {k : Nat} {found : Bool}
    {x : List Nat × ItemDefinition} :
    x ∈ askedFrom ds k found A ↔
      ∃ j d y, ds[j]? = some d ∧ y ∈ asked d (A.within (k + j)) ∧ x = Prod.map ((k + j) :: ·) id y ∧
        ∀ z, A.last? ds k found = some z → k + j ≤ z.2 := by
  induction ds generalizing k found with
  | nil =>
    refine ⟨fun h => (nomatch h), fun ⟨j, d, y, hd, _⟩ => (by cases hd)⟩
  | cons d ds ih =>
    -- an index is counted from the head, so the tail is asked for from `k + 1` on
    have hshift : ∀ j, k + 1 + j = k + (j + 1) := by omega
    rw [askedFrom, List.mem_append, List.mem_map]
    by_cases hstop : (found && active d (A.within k)) = true
    · -- `d` is the last one
      rw [Bool.and_eq_true] at hstop
      have hlast : A.last? (d :: ds) k found = some (d, k) := by
        rw [last?, if_pos hstop.1, activesFrom_of_active hstop.2]
        rfl
      rw [if_pos (Bool.and_eq_true_iff.mpr hstop), hlast]
      constructor
      · rintro (⟨y, hy, rfl⟩ | hnone)
        · exact ⟨0, d, y, rfl, hy, rfl, fun z hz => by rw [← Option.some.inj hz]; exact Nat.le_refl k⟩
        · cases hnone
      · rintro ⟨_ | j, d', y, hd, hy, rfl, hle⟩
        · obtain rfl : d = d' := Option.some.inj hd
          exact Or.inl ⟨y, hy, rfl⟩
        · have hlt : k + (j + 1) ≤ k := hle _ rfl
          omega
    · -- the loop goes on behind `d`, and so the last one is that of the tail
      have hlast : A.last? (d :: ds) k found =
          A.last? ds (k + 1) (found || active d (A.within k)) := by
        cases hactive : active d (A.within k) with
        | false => rw [last?, last?, activesFrom_of_inactive hactive, Bool.or_false]
        | true =>
          rw [hactive, Bool.and_true] at hstop
          rw [last?, last?, activesFrom_of_active hactive, if_neg hstop, Bool.or_true, if_pos rfl]
          rfl
      rw [if_neg hstop, hlast, ih]
      constructor
      · rintro (⟨y, hy, rfl⟩ | ⟨j, d', y, hd, hy, rfl, hle⟩)
        · exact ⟨0, d, y, rfl, hy, rfl, fun z hz => Nat.le_of_succ_le (le_of_last? hz)⟩
        · rw [hshift] at hy hle ⊢
          exact ⟨j + 1, d', y, hd, hy, rfl, hle⟩
      · rintro ⟨_ | j, d', y, hd, hy, rfl, hle⟩
        · obtain rfl : d = d' := Option.some.inj hd
          exact Or.inl ⟨y, hy, rfl⟩
        · rw [← hshift] at hy ⊢
          exact Or.inr ⟨j, d', y, hd, hy, rfl, fun z hz => (hshift j).symm ▸ hle z hz⟩

/-- **Who is asked for.** All elements of an alternative are asked for, but for those that stand
behind a conflict. Being behind a conflict is a matter of positions only, so that the recursion of
the questions need not be followed to tell who was left out. -/
theorem mem_asked_iff {d : Definition} {A : Assignment γ} {x : List Nat × ItemDefinition} :
    x ∈ asked d A ↔ x ∈ d.contenders ∧ ¬ A.Barred d x.1 := by
  induction d using Definition.induct generalizing A x with
  | node head cs ih =>
    match head with
    -- an element is asked for wherever it stands, and nothing bars it from itself
    | .element i =>
      show x ∈ [([], ⟨i, cs⟩)] ↔ x ∈ [([], ⟨i, cs⟩)] ∧ _
      exact ⟨fun h => ⟨h, fun hbarred => (nomatch hbarred)⟩, And.left⟩
    | .attribute _ | .reference _ | .extension _ =>
      exact ⟨fun h => (nomatch h), fun h => (nomatch h.1)⟩
    | .choice c =>
      rw [asked, Definition.contenders, mem_askedFrom, Definition.mem_contendersFrom]
      simp only [Nat.zero_add]
      constructor
      · -- asked for, hence up to the last one and so in front of every conflict
        rintro ⟨j, d, y, hd, hy, rfl, hle⟩
        obtain ⟨hmem, hfree⟩ := (ih d (List.mem_of_getElem? hd)).mp hy
        refine ⟨⟨j, d, y, hd, hmem, rfl⟩, fun hbarred => ?_⟩
        cases hbarred with
        | here conflict behind =>
          have hlast : A.last? cs 0 false = some _ := congrArg (fun l => l.tail.head?) conflict
          exact absurd (hle _ hlast) (Nat.not_le.mpr behind)
        | nested alternative inner =>
          obtain rfl := Option.some.inj (alternative.symm.trans hd)
          exact hfree inner
      · rintro ⟨⟨j, d, y, hd, hmem, rfl⟩, hfree⟩
        refine ⟨j, d, y, hd, (ih d (List.mem_of_getElem? hd)).mpr ⟨hmem, fun inner =>
          hfree (.nested hd inner)⟩, rfl, fun z hz => ?_⟩
        -- there is a last one only where two are active, and then what lies behind it is barred
        match hactives : A.actives cs with
        | [] | [_] =>
          rw [last?, if_neg Bool.false_ne_true, ← actives, hactives] at hz
          cases hz
        | x :: z' :: rest =>
          rw [last?, if_neg Bool.false_ne_true, ← actives, hactives] at hz
          obtain rfl : z' = z := Option.some.inj hz
          exact Nat.not_lt.mp fun behind => hfree (.here hactives behind)

/-- Along a list of alternatives the questions keep the order of declaration, if they do for each
alternative. -/
theorem askedFrom_sublist {ds : List Definition}
    (h : ∀ d ∈ ds, ∀ A : Assignment γ, (asked d A).Sublist d.contenders) (k : Nat) (found : Bool)
    (A : Assignment γ) : (askedFrom ds k found A).Sublist (Definition.contendersFrom ds k) := by
  induction ds generalizing k found with
  | nil => exact List.Sublist.refl _
  | cons d ds ih =>
    obtain ⟨hd, hds⟩ := List.forall_mem_cons.mp h
    rw [askedFrom, Definition.contendersFrom]
    refine ((hd _).map _).append ?_
    split
    · exact List.nil_sublist _
    · exact ih hds (k + 1) _

/-- **The order of questions** is that of the declaration. -/
theorem asked_sublist (d : Definition) (A : Assignment γ) : (asked d A).Sublist d.contenders := by
  induction d using Definition.induct generalizing A with
  | node head cs ih =>
    match head with
    | .element _ => exact List.Sublist.refl _
    | .choice _ => exact askedFrom_sublist ih 0 false A
    | .attribute _ | .reference _ | .extension _ => exact List.Sublist.refl _

/-- Without conflicts all elements are asked for. A sublist that leaves nobody out is the whole
list, since no position occurs twice. -/
theorem asked_of_not_clashes {d : Definition} {A : Assignment γ} (h : ¬ A.Clashes d) :
    asked d A = d.contenders := by
  have hall : d.contenders ⊆ asked d A := fun x hx => mem_asked_iff.mpr ⟨hx, fun hb => h hb.clashes⟩
  exact (asked_sublist d A).eq_of_length_le
    ((d.nodup_contenders.of_map Prod.fst).subperm hall).length_le

/-- What is asked for the element at a position, and what is found. -/
def question (A : Assignment γ) (place : Scope γ) (x : List Nat × ItemDefinition) : Exchange γ :=
  .element place x.2 (A.found x.1)

end Assignment

/-- What may be asked for the elements of an alternative is what may be asked for the alternative. -/
theorem Definition.asks_of_mem_contenders {r : Registry} {place : Scope γ} {d : Definition}
    {A : Assignment γ} {x : List Nat × ItemDefinition} (h : x ∈ d.contenders) :
    d.isAlternative = true ∧ d.Asks r place (A.question place x) := by
  induction d using Definition.induct generalizing A x with
  | node head cs ih =>
    match head with
    | .element i =>
      obtain rfl : x = ([], ⟨i, cs⟩) := List.mem_singleton.mp h
      exact ⟨rfl, .elements _⟩
    | .choice c =>
      obtain ⟨j, d, y, hd, hy, rfl⟩ := mem_contendersFrom.mp h
      obtain ⟨halternative, hasks⟩ := ih d (List.mem_of_getElem? hd) (A := A.within (0 + j)) hy
      exact ⟨rfl, .alternative (List.mem_of_getElem? hd) halternative hasks⟩
    | .attribute _ | .reference _ | .extension _ => cases h

/-! ## Ledgers -/

/-- What a state tells of the questions that were asked. Besides the record of a recorded binder
this covers a ledger that notes only some questions, and one that notes none. -/
structure Ledger (σ γ : Type) where
  read : σ → List (Exchange γ)
  -- the questions that are noted; of the others the state tells nothing
  notes : Exchange γ → Bool

namespace Ledger

/-- The ledger without any entry. -/
def blank (σ γ : Type) : Ledger σ γ := ⟨fun _ => [], fun _ => false⟩

/-- The record of a recorded binder. -/
def record (σ γ : Type) : Ledger (σ × List (Exchange γ)) γ := ⟨Prod.snd, fun _ => true⟩

end Ledger

/-- Whatever a binder is asked within a form, the ledger gets an entry for it, if it is noted. -/
structure Binder.Notes (b : Binder σ γ) (L : Ledger σ γ) : Prop where
  elements : ∀ place item s, L.read (b.bindElement place item s).2 =
    L.read s ++ [Exchange.element place item (b.bindElement place item s).1].filter L.notes
  attributes : ∀ place item s, L.read (b.bindAttribute place item s).2 =
    L.read s ++ [Exchange.attribute place item (b.bindAttribute place item s).1].filter L.notes
  forms : ∀ place form s, L.read (b.bindForm (some place) form s).2 =
    L.read s ++ [Exchange.bound (some place) form (b.bindForm (some place) form s).1].filter L.notes

namespace Binder

/-- The blank ledger holds for every binder, as nothing is to be noted. -/
theorem notes_blank (b : Binder σ γ) : b.Notes (.blank σ γ) where
  elements _ _ _ := rfl
  attributes _ _ _ := rfl
  forms _ _ _ := rfl

/-- A recorded binder notes all that it is asked within a form. -/
theorem recorded_notes (b : Binder σ γ) : b.recorded.Notes (.record σ γ) where
  elements _ _ _ := rfl
  attributes _ _ _ := rfl
  forms _ _ _ := rfl

variable {b : Binder σ γ} {L : Ledger σ γ} {place : Scope γ}

/-- While alternatives are resolved from an index on, the questions for each of them are noted, up
to the one that makes a conflict. -/
theorem AssignsFrom.noted {ds : List Definition} (hds : ∀ d ∈ ds, ∀ (A : Assignment γ) (s t : σ),
      b.Assigns place d A s t →
      L.read t = L.read s ++ ((Assignment.asked d A).map (A.question place)).filter L.notes)
    {k : Nat} {found : Bool} {A : Assignment γ} {s t : σ} (h : b.AssignsFrom place ds k found A s t) :
    L.read t = L.read s ++ ((Assignment.askedFrom ds k found A).map (A.question place)).filter L.notes := by
  induction ds generalizing k found s with
  | nil =>
    obtain rfl : s = t := h
    exact (List.append_nil _).symm
  | cons d ds ih =>
    obtain ⟨hd, hds⟩ := List.forall_mem_cons.mp hds
    obtain ⟨u, hfirst, hrest⟩ := h
    -- positions begin with the index in the group, and what is found there is what is found within
    -- the alternative
    have hquestions : ((Assignment.asked d (A.within k)).map (Prod.map (k :: ·) id)).map (A.question place) =
        (Assignment.asked d (A.within k)).map ((A.within k).question place) := List.map_map
    rw [Assignment.askedFrom, List.map_append, List.filter_append, ← List.append_assoc, hquestions,
      ← hd _ _ _ hfirst]
    split
    · next hstop =>
      rw [if_pos hstop] at hrest
      rw [hrest]
      exact (List.append_nil _).symm
    · next hstop =>
      rw [if_neg hstop] at hrest
      exact ih hds hrest

/-- **What is noted while a group is resolved** are the questions for the elements that are asked for. -/
theorem Assigns.noted (hb : b.Notes L) {d : Definition} {A : Assignment γ} {s t : σ}
    (h : b.Assigns place d A s t) :
    L.read t = L.read s ++ ((Assignment.asked d A).map (A.question place)).filter L.notes := by
  induction d using Definition.induct generalizing A s t with
  | node head cs ih =>
    match head with
    | .element i =>
      have hanswer : b.bindElement place ⟨i, cs⟩ s = (A.here, t) := h
      have hnoted := hb.elements place ⟨i, cs⟩ s
      rw [hanswer] at hnoted
      exact hnoted
    | .choice c => exact AssignsFrom.noted (fun d hd A s t => ih d hd) h
    | .attribute _ | .reference _ | .extension _ =>
      obtain rfl : s = t := h
      exact (List.append_nil _).symm

end Binder

/-! ## Surveys -/

/-- Between two records, a binder was asked for an alternative: for the elements of it, in the order of their
declaration, and for none of them twice. If there are conflicts, it was not asked for those that stand behind
them, but for all the others. -/
structure Assignment.Surveys (A : Assignment γ) (d : Definition) (place : Scope γ)
    (before after : List (Exchange γ)) : Prop where
  record : after = before ++ (asked d A).map (A.question place)
  ordered : (asked d A).Sublist d.contenders
  once : ((asked d A).map Prod.fst).Nodup
  all : ∀ x, x ∈ asked d A ↔ x ∈ d.contenders ∧ ¬ A.Barred d x.1
  whole : ¬ A.Clashes d → asked d A = d.contenders

/-- The questions that an assignment calls for survey the alternative. -/
theorem Assignment.surveys (A : Assignment γ) (d : Definition) (place : Scope γ)
    (before : List (Exchange γ)) :
    A.Surveys d place before (before ++ (asked d A).map (A.question place)) where
  record := rfl
  ordered := asked_sublist d A
  once := ((asked_sublist d A).map Prod.fst).nodup d.nodup_contenders
  all _ := mem_asked_iff
  whole := asked_of_not_clashes

/-- Whatever a recorded binder finds for an alternative, it is asked for it in this way. -/
theorem Binder.Assigns.surveys {b : Binder σ γ} {place : Scope γ} {d : Definition} {A : Assignment γ}
    {s t : σ × List (Exchange γ)} (h : b.recorded.Assigns place d A s t) :
    A.Surveys d place s.2 t.2 := by
  have hnoted : t.2 = s.2 ++ ((Assignment.asked d A).map (A.question place)).filter fun _ => true :=
    h.noted b.recorded_notes
  rw [List.filter_true] at hnoted
  rw [hnoted]
  exact A.surveys d place s.2

/-- **A group is resolved by a survey.** What a recorded binder is asked while a group is resolved tells what
it finds for the group, and resolution comes to what is found. -/
theorem Definition.resolve_surveys {b : Binder σ γ} {place : Scope γ} {path : NodePath} (c : Choice)
    (cs : List Definition) :
    Tells place (resolve b.recorded place c.label cs 0 none path) fun outcome xs =>
      ∃ A : Assignment γ, (∀ before, A.Surveys (.node (.choice c) cs) place before (before ++ xs)) ∧
        Settles A c.label path (A.actives cs) outcome := by
  intro s
  obtain ⟨A, t, given⟩ := b.recorded.exists_assigned place cs s
  obtain ⟨outcome, hresolve, hsettles⟩ : ∃ outcome,
      resolve b.recorded place c.label cs 0 none path s = (outcome, t) ∧
        Settles A c.label path (A.actives cs) outcome := resolve_assigned given
  have hsurvey := Binder.Assigns.surveys (d := .node (.choice c) cs) given
  rw [hresolve]
  refine ⟨_, hsurvey.record, fun x hx => ?_, A, A.surveys _ place, hsettles⟩
  obtain ⟨y, -, rfl⟩ := List.mem_map.mp hx
  rfl

end FormSchema
