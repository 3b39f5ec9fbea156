import FormSchema.Proofs.Document.Nulls

/-!
# Addresses in documents

A place in a document is kept as the text of a pointer, which grows by one token for every step down, and
every step starts over from the whole document. This module follows the text back to the value: however
strange a key is, and however many steps were made before, the longer pointer leads one step below where
the shorter one led. So what a document answers at a place with an address has an address itself.

Two things have to be checked for one step. The text of the longer pointer has to split into the
tokens of the shorter one and a last token, which is so because an escaped key has no slash in it.
And the last token has to read back as the key, or the numeral of the index, that it was written
for. Then resolving the longer pointer is resolving the shorter one and taking one step more, which
is all that is used of pointers from there on.

Having an address is the invariant of places. The root of a document with content has one, and the
binder makes places only by one step from places it is given.

* `Pointer.resolve?_member`, `Pointer.resolve?_item` — one token more is one step more.
* `Document.Addresses` — a place leads to content, and its text is that of the content.
* **`Document.elements_addresses`**, **`Document.attribute?_addresses`** — the instances found within
  such a place are such places.
-/

namespace FormSchema

/-! ## Pointers

Splitting is a recursion over characters, and appending a slash and a token adds one part at the end
as long as the token has no slash itself. Escaping sees to that, and its inverse is applied to the
parts after the splitting. -/

namespace Pointer

theorem split_ne_nil (cs : List Char) : split cs ≠ [] := by
  cases cs with
  | nil => simp [split]
  | cons c cs =>
    rw [split]
    split
    · simp
    · split <;> simp

/-- A slash separates what stands before it from what stands behind it. -/
theorem split_append (as bs : List Char) : split (as ++ '/' :: bs) = split as ++ split bs := by
  induction as with
  | nil => simp [split]
  | cons a as ih =>
    rw [List.cons_append, split, split, ih]
    by_cases ha : a = '/'
    · simp [ha]
    · cases has : split as with
      | nil => exact absurd has (split_ne_nil as)
      | cons part parts => simp [ha]

theorem split_of_notMem {cs : List Char} (h : '/' ∉ cs) : split cs = [cs] := by
  induction cs with
  | nil => rfl
  | cons c cs ih =>
    obtain ⟨hc, hcs⟩ := not_or.mp (List.mem_cons.not.mp h)
    rw [split, if_neg (Ne.symm hc), ih hcs]

theorem tokens?_append (p : Pointer) {token : List Char} (h : '/' ∉ token) :
    tokens? ⟨p.text ++ "/" ++ String.ofList token⟩ =
      p.tokens?.map (· ++ [String.ofList (unescape token)]) := by
  have htext : (p.text ++ "/" ++ String.ofList token).toList = p.text.toList ++ '/' :: token := by
    simp
  rw [tokens?, tokens?, htext]
  cases p.text.toList with
  | nil => simp [split_of_notMem h]
  | cons c cs =>
    by_cases hc : c = '/'
    · subst hc
      simp [split_append, split_of_notMem h]
    · simp [hc]

theorem tokens?_member (p : Pointer) (key : String) :
    (p.member key).tokens? = p.tokens?.map (· ++ [key]) := by
  rw [member, tokens?_append p (slash_notMem_escape _), unescape_escape, String.ofList_toList]

theorem unescape_of_notMem {cs : List Char} (h : '~' ∉ cs) : unescape cs = cs := by
  induction cs with
  | nil => rfl
  | cons c cs ih =>
    obtain ⟨hc, hcs⟩ := not_or.mp (List.mem_cons.not.mp h)
    rw [unescape, ih hcs]
    · exact fun _ heq => absurd heq.symm hc
    · exact fun _ heq => absurd heq.symm hc

/-- A numeral is no special text in a pointer: all that it has are digits. -/
theorem tokens?_item (p : Pointer) (index : Nat) :
    (p.item index).tokens? = p.tokens?.map (· ++ [Nat.repr index]) := by
  have hdigit : ∀ c ∈ Nat.toDigits 10 index, c.isDigit = true := fun c hc =>
    Nat.isDigit_of_mem_toDigits (by decide) (by decide) hc
  have hslash : '/' ∉ Nat.toDigits 10 index := fun hc => absurd (hdigit _ hc) (by decide)
  have htilde : '~' ∉ Nat.toDigits 10 index := fun hc => absurd (hdigit _ hc) (by decide)
  rw [item, Nat.repr_eq_ofList_toDigits, tokens?_append p hslash, unescape_of_notMem htilde]

/-! ## Indices

An array is indexed by a decimal numeral. Numerals with a zero in front are refused, so it has to be
checked that the numeral which is written for an index has none. -/

/-- The numeral of a number starts with a zero for zero only. -/
theorem head?_toDigits_ne_zero {n : Nat} (h : 0 < n) : (Nat.toDigits 10 n).head? ≠ some '0' := by
  induction n using Nat.strong_induction_on with
  | h n ih =>
    by_cases hlt : n < 10
    · have hdigits : ∀ m < 10, 0 < m → Nat.digitChar m ≠ '0' := by decide
      rw [Nat.toDigits_of_lt_base hlt]
      simp [hdigits n hlt h]
    · have hle : 10 ≤ n := Nat.le_of_not_lt hlt
      -- the leading digit is that of what is left without the last one
      have hfront := ih (n / 10) (by omega) (by omega)
      rw [Nat.toDigits_of_base_le (by decide) hle]
      cases hds : Nat.toDigits 10 (n / 10) with
      | nil => exact absurd hds Nat.toDigits_ne_nil
      | cons d ds =>
        rw [hds] at hfront
        exact hfront

/-- The numeral of an index names the index. -/
theorem index?_repr (n : Nat) : index? (Nat.repr n) = some n := by
  have hlist : (Nat.repr n).toList = Nat.toDigits 10 n := by
    rw [Nat.repr_eq_ofList_toDigits, String.toList_ofList]
  have hdigits : (Nat.toDigits 10 n).all Char.isDigit = true := List.all_eq_true.mpr fun c hc =>
    Nat.isDigit_of_mem_toDigits (by decide) (by decide) hc
  rw [index?, hlist]
  split
  · next heq => exact absurd heq Nat.toDigits_ne_nil
  · next c cs heq =>
    -- only zero itself starts with a zero, and its numeral has one digit
    have hzero : n = 0 := by
      by_contra hne
      exact head?_toDigits_ne_zero (Nat.pos_of_ne_zero hne) (by rw [heq]; rfl)
    subst hzero
    cases heq
  · rw [if_pos hdigits]
    exact Nat.toNat?_repr n

/-! ## Steps

What the text of a pointer means is now a walk along tokens, and a pointer with one token more leads
one step further. -/

theorem resolve?_of_tokens? {p q : Pointer} {token : String}
    (h : q.tokens? = p.tokens?.map (· ++ [token])) (v : Json) :
    q.resolve? v = (p.resolve? v).bind fun w => step w token := by
  rw [resolve?, resolve?, h]
  cases p.tokens? with
  | none => rfl
  | some tokens =>
    show (tokens ++ [token]).foldlM step v = (tokens.foldlM step v).bind fun w => step w token
    rw [List.foldlM_append]
    cases tokens.foldlM step v with
    | none => rfl
    | some w => simp

/-- **One step below.** The pointer to a member leads from where the pointer led to its member of that
name, whatever characters the name has. -/
theorem resolve?_member (p : Pointer) (key : String) (v : Json) :
    (p.member key).resolve? v = (p.resolve? v).bind fun w => step w key :=
  resolve?_of_tokens? (tokens?_member p key) v

theorem resolve?_item (p : Pointer) (index : Nat) (v : Json) :
    (p.item index).resolve? v = (p.resolve? v).bind fun w => step w (Nat.repr index) :=
  resolve?_of_tokens? (tokens?_item p index) v

/-- The pointer to an item of an array leads to that item. -/
theorem resolve?_item_of_array {p : Pointer} {v : Json} {items : List Json}
    (h : p.resolve? v = some (.array items)) (index : Nat) :
    (p.item index).resolve? v = items[index]? := by
  rw [resolve?_item, h, Option.bind_some, step, index?_repr, Option.bind_some]

end Pointer

/-! ## Places

An address leads somewhere, to something that is not null, and the text of the place is that of the
value found there. Null values have no places, for which the items of arrays need care: they are
passed over, and those behind them keep their numbers. -/

namespace Document

/-- A place addresses what it claims: its pointer leads to a value of the document that is not null, and
its text is that of the value, which collections have none of. -/
def Addresses (d : Document) (c : Located) : Prop :=
  ∃ v, c.pointer.resolve? d.value = some v ∧ v.isNull = false ∧ c.scalar = Located.scalarText v

variable {d : Document} {within : Located}

theorem addresses_of {p : Pointer} {v : Json} (h : p.resolve? d.value = some v)
    (hcontent : v.isNull = false) : d.Addresses (.of p v) := ⟨v, h, hcontent, rfl⟩

theorem root_addresses (h : d.hasContent = true) : d.Addresses (.of .root d.value) :=
  addresses_of rfl (Bool.not_eq_true' _ ▸ h)

/-- Items are counted from the first one of the array, whatever their number and whichever are null. -/
theorem locateItems_addresses {p : Pointer} (before items : List Json)
    (h : p.resolve? d.value = some (.array (before ++ items))) :
    ∀ c ∈ locateItems p before.length items, d.Addresses c := by
  induction items generalizing before with
  | nil => exact nofun
  | cons v items ih =>
    -- behind the first item the array is the same, with one item more in front
    have hrest : ∀ c ∈ locateItems p (before.length + 1) items, d.Addresses c := by
      have hnext := ih (before ++ [v]) (by rw [h, List.append_assoc, List.singleton_append])
      rw [List.length_append, List.length_singleton] at hnext
      exact hnext
    intro c hc
    rw [locateItems] at hc
    split at hc
    · exact hrest c hc
    · next hcontent =>
      cases List.mem_cons.mp hc with
      | inl hfirst =>
        subst hfirst
        refine addresses_of ?_ (Bool.not_eq_true _ ▸ hcontent)
        rw [Pointer.resolve?_item_of_array h, List.getElem?_append_right (Nat.le_refl _), Nat.sub_self]
        rfl
      | inr hlater => exact hrest c hlater

/-- **Elements.** The instances that a document gives an element within a place with an address have
addresses. -/
theorem elements_addresses (h : d.Addresses within) (key : Option String) :
    ∀ c ∈ d.elements within key, d.Addresses c := by
  cases key with
  | none =>
    intro c hc
    rw [elements] at hc
    exact List.mem_singleton.mp hc ▸ h
  | some key =>
    rw [elements_some]
    cases hfound : Json.content? ((within.pointer.member key).resolve? d.value) with
    | none =>
      intro c hc
      cases hc
    | some v =>
      obtain ⟨hresolved, hcontent⟩ := Option.filter_eq_some_iff.mp hfound
      -- a value that is not an array is an instance as a whole
      have hone : ∀ c ∈ [Located.of (within.pointer.member key) v], d.Addresses c := fun c hc =>
        List.mem_singleton.mp hc ▸ addresses_of hresolved (by simpa using hcontent)
      cases v with
      | array items => exact locateItems_addresses [] items hresolved
      | _ => exact hone

/-- **Attributes.** So does the instance of an attribute. -/
theorem attribute?_addresses (h : d.Addresses within) (key : Option String) {c : Located}
    (hc : d.attribute? within key = some c) : d.Addresses c := by
  cases key with
  | none =>
    rw [attribute?] at hc
    exact Option.some.inj hc ▸ h
  | some key =>
    rw [attribute?_some] at hc
    obtain ⟨v, hfound, rfl⟩ := Option.map_eq_some_iff.mp hc
    obtain ⟨hresolved, hcontent⟩ := Option.filter_eq_some_iff.mp hfound
    exact addresses_of hresolved (by simpa using hcontent)

end Document

end FormSchema
