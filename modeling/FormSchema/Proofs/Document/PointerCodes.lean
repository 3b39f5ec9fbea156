import FormSchema.Proofs.Document.Lookups

/-!
# Pointers as codes

A pointer is the text of the steps that lead to a place, each behind a slash. A key may hold slashes and
tildes of its own, so it is written with two replacements and read back with two others, and the order of
either matters. No two ways of steps have the same text: a pointer splits into the tokens it was made of, and
each token reads back as what it was written for. So the instances that an element is bound to at one place
are told apart by their pointers.

The code is analysed from the outside in. A pointer splits at its slashes, because no token has one.
A token is undone by two replacements, which is to be shown of the replacements themselves, each
throughout the whole text, and not only of the loop that makes both in one pass. Then the list of
tokens is recovered from the text, and two ways of steps with the same text have the same tokens. It
does not follow that the steps are the same: an index and a key that is its numeral are written
alike, and this is the only way in which two ways can share a pointer.

* `Pointer.replaceChar`, `Pointer.replacePair` — replacements throughout a text.
* **`Pointer.escape_eq_replace`**, **`Pointer.unescape_eq_replace`** — what escaping and its inverse do, as
  replacements that are made one after the other.
* **`Pointer.split_ofSteps`** — a pointer splits at its slashes into the tokens of its steps.
* **`Pointer.ofSteps_code`** — pointers as a code for ways of steps, and for the instances of an element.
-/

namespace FormSchema

namespace Pointer

/-! ## Replacements

Escaping a text character by character is the same as replacing tildes throughout and then slashes
throughout. The inverse reads two characters at a time, and is the same as replacing the pair for a
slash throughout and then the pair for a tilde. The order matters in both, and the lemmas about
pairs say where the second replacement could meet something that the first one wrote. -/

/-- A text with another one in the place of a character. -/
def replaceChar (c : Char) (text : List Char) (cs : List Char) : List Char :=
  cs.flatMap fun x => if x = c then text else [x]

/-- A text with one character in the place of two, wherever they stand side by side. -/
def replacePair (a b c : Char) : List Char → List Char
  | x :: y :: cs =>
    if x = a ∧ y = b then c :: replacePair a b c cs else x :: replacePair a b c (y :: cs)
  | cs => cs

/-- **Escaping** replaces tildes first, so that those it writes for slashes are left alone. -/
theorem escape_eq_replace (cs : List Char) :
    escape cs = replaceChar '/' ['~', '1'] (replaceChar '~' ['~', '0'] cs) := by
  induction cs with
  | nil => rfl
  | cons c cs ih =>
    rw [escape, ih]
    by_cases htilde : c = '~'
    · subst htilde
      simp [replaceChar]
    · by_cases hslash : c = '/'
      · subst hslash
        simp [replaceChar]
      · simp [replaceChar, htilde, hslash]

section Pairs

variable {a b c x : Char}

theorem replacePair_hit (cs : List Char) :
    replacePair a b c (a :: b :: cs) = c :: replacePair a b c cs := by
  rw [replacePair, if_pos ⟨rfl, rfl⟩]

/-- A character is kept unless it begins a pair. -/
theorem replacePair_cons {cs : List Char} (h : x = a → cs.head? ≠ some b) :
    replacePair a b c (x :: cs) = x :: replacePair a b c cs := by
  cases cs with
  | nil => rfl
  | cons y cs =>
    refine (replacePair.eq_1 a b c x y cs).trans (if_neg fun hpair => h hpair.1 ?_)
    rw [hpair.2]
    rfl

/-- What comes first is what came first, or else what is written for pairs. -/
theorem head?_replacePair (cs : List Char) :
    (replacePair a b c cs).head? = cs.head? ∨ (replacePair a b c cs).head? = some c := by
  match cs with
  | [] => exact Or.inl rfl
  | [x] => exact Or.inl rfl
  | x :: y :: cs =>
    rw [replacePair]
    split
    · exact Or.inr rfl
    · exact Or.inl rfl

end Pairs

/-- **The inverse** replaces in the opposite order: the tilde of an escaped tilde is not taken for the
beginning of an escaped slash. -/
theorem unescape_eq_replace (cs : List Char) :
    unescape cs = replacePair '~' '0' '~' (replacePair '~' '1' '/' cs) := by
  fun_induction unescape cs with
  | case1 => rfl
  | case2 cs ih =>
    have hzero : '0' = '~' → cs.head? ≠ some '1' := fun h => absurd h (by decide)
    rw [replacePair_cons (by simp), replacePair_cons hzero, replacePair_hit, ih]
  | case3 cs ih =>
    have hslash : '/' = '~' → (replacePair '~' '1' '/' cs).head? ≠ some '0' :=
      fun h => absurd h (by decide)
    rw [replacePair_hit, replacePair_cons hslash, ih]
  | case4 c cs hzero hone ih =>
    -- a tilde in front of another character stands for itself, also after slashes have been written
    have hnext : c = '~' → cs.head? ≠ some '0' ∧ cs.head? ≠ some '1' := by
      rintro rfl
      cases cs with
      | nil => simp
      | cons y cs =>
        constructor
        · simpa using fun h => hzero cs rfl (congrArg (· :: cs) h)
        · simpa using fun h => hone cs rfl (congrArg (· :: cs) h)
    have hthen : c = '~' → (replacePair '~' '1' '/' cs).head? ≠ some '0' := by
      intro hc
      rcases head?_replacePair (a := '~') (b := '1') (c := '/') cs with hhead | hhead
      · rw [hhead]
        exact (hnext hc).1
      · rw [hhead]
        decide
    rw [replacePair_cons fun hc => (hnext hc).2, replacePair_cons hthen, ih]

/-! ## Ways of steps

A way is a list of steps, and its pointer grows by one token with each of them. Everything about
texts is reduced to the list of tokens here. -/

/-- A step down from a value, to a member of an object or to an item of an array. -/
inductive Step where
  | member (key : String)
  | item (index : Nat)
deriving DecidableEq

/-- The key, or the numeral of the index. -/
def Step.text : Step → String
  | member key => key
  | item index => Nat.repr index

/-- What is written for a step. -/
def Step.token : Step → List Char
  | member key => escape key.toList
  | item index => (Nat.repr index).toList

def Step.extend (p : Pointer) : Step → Pointer
  | member key => p.member key
  | item index => p.item index

/-- The pointer of a way of steps from the whole document. -/
def ofSteps (steps : List Step) : Pointer := steps.foldl Step.extend root

theorem ofSteps_concat (steps : List Step) (s : Step) :
    ofSteps (steps ++ [s]) = s.extend (ofSteps steps) := by
  rw [ofSteps, List.foldl_append]
  rfl

theorem toList_extend (p : Pointer) (s : Step) :
    (s.extend p).text.toList = p.text.toList ++ '/' :: s.token := by
  cases s with
  | member key => simp [Step.extend, member, Step.token]
  | item index => simp [Step.extend, item, Step.token]

theorem isDigit_of_mem_repr {n : Nat} {c : Char} (h : c ∈ (Nat.repr n).toList) : c.isDigit = true := by
  rw [Nat.repr_eq_ofList_toDigits, String.toList_ofList] at h
  exact Nat.isDigit_of_mem_toDigits (by decide) (by decide) h

/-- No token has a slash in it. -/
theorem Step.slash_notMem_token (s : Step) : '/' ∉ s.token := by
  cases s with
  | member key => exact slash_notMem_escape key.toList
  | item index => exact fun h => absurd (isDigit_of_mem_repr h) (by decide)

theorem Step.unescape_token (s : Step) : unescape s.token = s.text.toList := by
  cases s with
  | member key => exact unescape_escape key.toList
  | item index => exact unescape_of_notMem fun h => absurd (isDigit_of_mem_repr h) (by decide)

/-- **A pointer splits into its tokens**, behind the empty part in front of the first slash. -/
theorem split_ofSteps (steps : List Step) :
    split (ofSteps steps).text.toList = [] :: steps.map Step.token := by
  induction steps using List.reverseRecOn with
  | nil => rfl
  | append_singleton steps s ih =>
    rw [ofSteps_concat, toList_extend, split_append, ih, split_of_notMem s.slash_notMem_token]
    simp

/-- What the parts of a pointer are read as are the texts of its steps. -/
theorem map_unescape_token (steps : List Step) :
    (steps.map Step.token).map unescape = steps.map fun s => s.text.toList := by
  rw [List.map_map]
  exact List.map_congr_left fun s _ => s.unescape_token

/-- Neither tildes nor slashes, nothing to escape. -/
theorem escape_of_notMem {cs : List Char} (htilde : '~' ∉ cs) (hslash : '/' ∉ cs) : escape cs = cs := by
  induction cs with
  | nil => rfl
  | cons c cs ih =>
    simp only [List.mem_cons, not_or] at htilde hslash
    rw [escape, if_neg (Ne.symm htilde.1), if_neg (Ne.symm hslash.1), ih htilde.2 hslash.2]

/-- An index is written as the key that is its numeral would be. -/
theorem Step.token_eq (s : Step) : s.token = escape s.text.toList := by
  cases s with
  | member key => rfl
  | item index =>
    refine (escape_of_notMem ?_ ?_).symm
    · exact fun h => absurd (isDigit_of_mem_repr h) (by decide)
    · exact fun h => absurd (isDigit_of_mem_repr h) (by decide)

theorem toList_ofSteps (steps : List Step) :
    (ofSteps steps).text.toList = (steps.map Step.text).flatMap fun text => '/' :: escape text.toList := by
  induction steps using List.reverseRecOn with
  | nil => rfl
  | append_singleton steps s ih =>
    rw [ofSteps_concat, toList_extend, ih, s.token_eq]
    simp

theorem tokens?_ofSteps (steps : List Step) : (ofSteps steps).tokens? = some (steps.map Step.text) := by
  induction steps using List.reverseRecOn with
  | nil => rfl
  | append_singleton steps s ih =>
    rw [ofSteps_concat]
    cases s with
    | member key => simp [Step.extend, tokens?_member, ih, Step.text]
    | item index => simp [Step.extend, tokens?_item, ih, Step.text]

/-- **Two ways have the same pointer** exactly when they have the same texts, one by one. The texts
are recovered by splitting and unescaping, which is one direction; the other is that the pointer is
written from the texts alone. -/
theorem ofSteps_eq_iff {steps steps' : List Step} :
    ofSteps steps = ofSteps steps' ↔ steps.map Step.text = steps'.map Step.text := by
  constructor
  · intro h
    have htokens := congrArg tokens? h
    rw [tokens?_ofSteps, tokens?_ofSteps] at htokens
    exact Option.some.inj htokens
  · intro h
    have htext : (ofSteps steps).text = (ofSteps steps').text := by
      rw [← String.toList_inj, toList_ofSteps, toList_ofSteps, h]
    exact congrArg Pointer.mk htext

theorem item_injective (p : Pointer) : Function.Injective p.item := by
  intro i j h
  have htext : (p.item i).text.toList = (p.item j).text.toList := congrArg (fun q => q.text.toList) h
  simp only [item, String.toList_append, List.append_assoc, List.append_cancel_left_eq,
    String.toList_inj] at htext
  have hindex := congrArg index? htext
  rw [index?_repr, index?_repr] at hindex
  exact Option.some.inj hindex

end Pointer

/-! ## Instances

The instances of an element are either one value, with one pointer, or items of one array. The
pointers of items differ in their last token, which is the numeral of the index. -/

namespace Document

/-- **The instances of an element at one place have different pointers**: they are the place itself, one value
below it, or items of one array. -/
theorem elements_pointers_nodup (d : Document) (within : Located) (key : Option String) :
    ((d.elements within key).map fun found => found.pointer).Nodup := by
  cases key with
  | none => exact List.nodup_singleton _
  | some key =>
    rw [elements_some]
    split
    · exact List.nodup_nil
    · next items _ =>
      rw [locateItems_eq, List.map_map]
      -- items that are null are left out, and what is left has its own index each
      have hindices : ((items.zipIdx.filter fun x => !x.1.isNull).map Prod.snd).Nodup := by
        refine (List.filter_sublist.map Prod.snd).nodup ?_
        rw [List.zipIdx_map_snd]
        exact List.nodup_range'
      have hpointers := hindices.map (Pointer.item_injective (within.pointer.member key))
      rwa [List.map_map] at hpointers
    · exact List.nodup_singleton _

end Document

namespace Pointer

/-- **Pointers are a code for places.** The pointer of any way of steps is split at its slashes into an empty
part and as many tokens as there are steps. Each of them, with its escaped slashes and then its escaped tildes
replaced, is the key or the numeral of the index that it was written for; and what is written for a key is the
key with its tildes and then its slashes replaced. So two ways with the same pointer have the same keys and
numerals. The instances that an element is bound to at one place have different pointers, and different
entries in paths. -/
theorem ofSteps_code (steps : List Step) :
    (∃ parts, split (ofSteps steps).text.toList = [] :: parts ∧ parts.length = steps.length ∧
      parts.map (fun part => replacePair '~' '0' '~' (replacePair '~' '1' '/' part)) =
        steps.map fun s => s.text.toList) ∧
    (∀ key, (ofSteps (steps ++ [.member key])).text.toList = (ofSteps steps).text.toList ++
      '/' :: replaceChar '/' ['~', '1'] (replaceChar '~' ['~', '0'] key.toList)) ∧
    (∀ index, (ofSteps (steps ++ [.item index])).text = (ofSteps steps).text ++ "/" ++ Nat.repr index) ∧
    (ofSteps steps).tokens? = some (steps.map Step.text) ∧
    (∀ steps', ofSteps steps = ofSteps steps' ↔ steps.map Step.text = steps'.map Step.text) ∧
    ∀ (σ : Type) (d : Document) (place : Scope Located) (item : ItemDefinition) (s : σ) (label : String),
      ((((d.binder σ).bindElement place item s).1).map fun found => found.pointer).Nodup ∧
      ((((d.binder σ).bindElement place item s).1).map fun found =>
        ((d.binder σ).describe s found).getD label).Nodup := by
  refine ⟨⟨steps.map Step.token, split_ofSteps steps, List.length_map _, ?_⟩, fun key => ?_, fun index => ?_,
    tokens?_ofSteps steps, fun steps' => ofSteps_eq_iff, fun σ d place item s label => ?_⟩
  · rw [← map_unescape_token]
    exact List.map_congr_left fun part _ => (unescape_eq_replace part).symm
  · rw [ofSteps_concat, toList_extend, ← escape_eq_replace]
    rfl
  · rw [ofSteps_concat]
    rfl
  · have hpointers := d.elements_pointers_nodup place.context item.lookupKey
    refine ⟨hpointers, ?_⟩
    -- a path entry is the text of the pointer behind a hash sign, so different pointers have
    -- different entries
    have hentries : Function.Injective fun p : Pointer => "#" ++ p.text := by
      intro p q h
      have htext : ("#" ++ p.text).toList = ("#" ++ q.text).toList := congrArg String.toList h
      simp only [String.toList_append, List.append_cancel_left_eq, String.toList_inj] at htext
      exact congrArg Pointer.mk htext
    have hall := hpointers.map hentries
    rwa [List.map_map] at hall

/-- The pointer of a key that looks escaped already. -/
example : (ofSteps [.member "a/b", .item 0, .member "~1"]).text = "/a~1b/0/~01" := by decide

end Pointer

end FormSchema
