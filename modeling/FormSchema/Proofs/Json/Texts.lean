import FormSchema.Json.Printer
import FormSchema.Json.Reader
import Mathlib.Data.Char
import Mathlib.Data.List.Basic

/-!
# JSON texts of texts

The compact text of a value says all there is to say of it. Where a string ends can be told from the text, for
its own quotes are escaped; where an item or a member ends can be told too, since what comes next is a comma or
the bracket that closes the list. So nothing that follows the text of a value can be taken for a part of it, and
two values with the same text are the same. Numbers are left out: their digits would run on.

What is shown is stronger than that different values have different texts, and has to be. An
induction over the value needs to know where the text of an item stops within the text of the array,
so the claim is made with an arbitrary text behind: if two values followed by two texts make the
same whole, then the values are the same and so is what follows. The claim goes through lists
because the character behind an item is either a comma or the closing bracket, and no value begins
with either.

* `Json.Textual` — values that are made of strings, arrays and objects alone.
* **`Json.readString_escaped`** — an escaped string is read back.
* `Json.TellsApart`, **`Json.TellsApart.joined`** — texts that can be split off, and lists of them.
* **`Json.compact_tellsApart`** — the texts of values can be split off.
-/

namespace FormSchema

namespace Json

/-! ## Strings

Reading back is the easy way to show that two strings with the same escaped text are the same. The
reader stops at the first quote that is not escaped, and what is written for a character never
contains such a quote. -/

theorem hexValue?_hexDigit (n : Nat) : hexValue? (hexDigit n) = some (n % 16) := by
  have hdigits : ∀ m < 16, hexValue? (Nat.digitChar m) = some m := by decide
  exact hdigits _ (Nat.mod_lt n (by decide))

/-- A control character is read back from its code. -/
theorem readEscapedUnit_control {c : Char} (h : c.toNat < 0x20) (rest : List Char) :
    readEscapedUnit ('0' :: '0' :: hexDigit (c.toNat / 16) :: hexDigit c.toNat :: rest) =
      some (c, rest) := by
  have hzero : hexValue? '0' = some 0 := by decide
  have hunit : ((0 * 16 + 0) * 16 + c.toNat / 16 % 16) * 16 + c.toNat % 16 = c.toNat := by omega
  have hlow : ¬ (0xDC00 ≤ c.toNat ∧ c.toNat ≤ 0xDFFF) := by omega
  have hhigh : ¬ (0xD800 ≤ c.toNat ∧ c.toNat ≤ 0xDBFF) := by omega
  simp only [readEscapedUnit, readUnit, hzero, hexValue?_hexDigit, Option.bind_eq_bind, Option.bind_some,
    hunit, if_neg hlow, if_neg hhigh, Char.ofNat_toNat]

/-- **A character is read back** from how it stands within a string. -/
theorem readString_escapeChar (fuel : Nat) (done : List Char) (c : Char) (rest : List Char) :
    readString (fuel + 1) done (escapeChar c ++ rest) = readString fuel (c :: done) rest := by
  unfold escapeChar
  -- two marks, five characters with a letter of their own, the other controls, and what stands for
  -- itself
  split_ifs with hquote hslash hline hreturn htab hback hfeed hcontrol
  · subst hquote
    simp [readString, simpleEscape?]
  · subst hslash
    simp [readString, simpleEscape?]
  · subst hline
    simp [readString, simpleEscape?]
  · subst hreturn
    simp [readString, simpleEscape?]
  · subst htab
    simp [readString, simpleEscape?]
  · subst hback
    simp [readString, simpleEscape?]
  · subst hfeed
    simp [readString, simpleEscape?]
  · simp [readString, readEscapedUnit_control hcontrol]
  · simp [readString, hquote, hslash, hcontrol]

/-- **A string is read back** up to its closing quote, and no further. -/
theorem readString_escaped (fuel : Nat) (done cs rest : List Char) :
    readString (fuel + cs.length + 1) done (cs.flatMap escapeChar ++ '\x22' :: rest) =
      some (String.ofList (done.reverse ++ cs), rest) := by
  induction cs generalizing done with
  | nil => simp [readString]
  | cons c cs ih =>
    have hfuel : fuel + (c :: cs).length + 1 = fuel + cs.length + 1 + 1 := by simp; omega
    rw [hfuel, List.flatMap_cons, List.append_assoc, readString_escapeChar, ih]
    simp

/-! ## Texts that can be split off

The notion is a property of one value among all values of a kind. It is stated for any type, so that
it serves for values, for members of objects and for lists of either. -/

section Splitting

variable {α : Type} {f : α → List Char} {P : α → Prop} {a : α}

/-- The text of a value can be split off from what follows it, among all values with some property. -/
def TellsApart (f : α → List Char) (P : α → Prop) (a : α) : Prop :=
  ∀ b s t, P b → f a ++ s = f b ++ t → a = b ∧ s = t

theorem toList_quoted (s : String) :
    (quoted s).toList = '\x22' :: (s.toList.flatMap escapeChar ++ ['\x22']) := by
  simp [quoted]

theorem quoted_tellsApart (s : String) : TellsApart (fun s => (quoted s).toList) (fun _ => True) s := by
  intro s' rest rest' _ h
  simp only [toList_quoted, List.cons_append, List.cons.injEq, true_and, List.append_assoc,
    List.nil_append] at h
  -- both are read with the same fuel, which is enough for either
  have hread := readString_escaped s'.toList.length [] s.toList rest
  have hread' := readString_escaped s.toList.length [] s'.toList rest'
  rw [h, Nat.add_comm s'.toList.length, hread'] at hread
  simpa [eq_comm] using hread

/-- The texts of some values with commas between them. -/
def joined (f : α → List Char) : List α → List Char
  | [] => []
  | a :: as => f a ++ as.flatMap fun b => ',' :: f b

theorem TellsApart.followers {close : Char} (hclose : close ≠ ',') {as bs : List α} {s t : List Char}
    (ha : ∀ a ∈ as, TellsApart f P a) (hb : ∀ b ∈ bs, P b)
    (h : (as.flatMap fun a => ',' :: f a) ++ close :: s = (bs.flatMap fun b => ',' :: f b) ++ close :: t) :
    as = bs ∧ s = t := by
  induction as generalizing bs with
  | nil =>
    cases bs with
    | nil => simpa using h
    | cons b bs => simp [hclose] at h
  | cons a as ih =>
    cases bs with
    -- one text goes on where the other one is closed
    | nil => simp [Ne.symm hclose] at h
    | cons b bs =>
      simp only [List.flatMap_cons, List.cons_append, List.append_assoc, List.cons.injEq, true_and] at h
      obtain ⟨rfl, hrest⟩ := ha a List.mem_cons_self b _ _ (hb b List.mem_cons_self) h
      obtain ⟨rfl, hst⟩ := ih (fun a h => ha a (List.mem_cons_of_mem _ h))
        (fun b h => hb b (List.mem_cons_of_mem _ h)) hrest
      exact ⟨rfl, hst⟩

/-- **A list of texts can be split off** before the bracket that closes it, if no text of the list begins with
that bracket. -/
theorem TellsApart.joined {close : Char} (hclose : close ≠ ',')
    (hopen : ∀ a s t, P a → f a ++ s ≠ close :: t) {as bs : List α} {s t : List Char}
    (ha : ∀ a ∈ as, P a ∧ TellsApart f P a) (hb : ∀ b ∈ bs, P b)
    (h : joined f as ++ close :: s = joined f bs ++ close :: t) : as = bs ∧ s = t := by
  -- a text that goes on with the closing character has no further items, and no item begins with
  -- that character
  cases as with
  | nil =>
    cases bs with
    | nil => simpa [Json.joined] using h
    | cons b bs =>
      rw [Json.joined, Json.joined, List.append_assoc] at h
      exact absurd h.symm (hopen b _ s (hb b List.mem_cons_self))
  | cons a as =>
    obtain ⟨hPa, hapart⟩ := ha a List.mem_cons_self
    cases bs with
    | nil =>
      rw [Json.joined, Json.joined, List.append_assoc] at h
      exact absurd h (hopen a _ t hPa)
    | cons b bs =>
      rw [Json.joined, Json.joined, List.append_assoc, List.append_assoc] at h
      obtain ⟨rfl, hrest⟩ := hapart b _ _ (hb b List.mem_cons_self) h
      obtain ⟨rfl, hst⟩ := TellsApart.followers hclose (fun a h => (ha a (List.mem_cons_of_mem _ h)).2)
        (fun b h => hb b (List.mem_cons_of_mem _ h)) hrest
      exact ⟨rfl, hst⟩

end Splitting

/-! ## Values

The induction is on one of the two values, with a case split on the other. Values of different kinds
differ in their first character. -/

/-- A value that is made of strings, arrays and objects alone. -/
inductive Textual : Json → Prop where
  | string (s : String) : Textual (.string s)
  | array {items : List Json} (below : ∀ v ∈ items, Textual v) : Textual (.array items)
  | object {members : List (String × Json)} (below : ∀ m ∈ members, Textual m.2) :
      Textual (.object members)

def chars (v : Json) : List Char := v.compact.toList

/-- A member as it stands in the text of an object. -/
def memberChars (m : String × Json) : List Char := (quoted m.1).toList ++ ':' :: m.2.chars

theorem toList_compactItems (items : List Json) : (compactItems items).toList = joined chars items := by
  induction items with
  | nil => rfl
  | cons v items ih =>
    cases items with
    | nil => simp [compactItems, joined, chars]
    | cons w items =>
      rw [compactItems, String.toList_append, String.toList_append, ih]
      · simp [joined, chars]
      · exact List.cons_ne_nil w items

theorem toList_compactMembers (members : List (String × Json)) :
    (compactMembers members).toList = joined memberChars members := by
  induction members with
  | nil => rfl
  | cons m members ih =>
    obtain ⟨name, v⟩ := m
    cases members with
    | nil => simp [compactMembers, joined, memberChars, chars]
    | cons m members =>
      rw [compactMembers]
      · simp [ih, joined, memberChars, chars]
      · exact List.cons_ne_nil m members

theorem chars_string (s : String) : (string s).chars = (quoted s).toList := rfl

theorem chars_array (items : List Json) : (array items).chars = '[' :: (joined chars items ++ [']']) := by
  rw [chars, compact, String.toList_append, String.toList_append, toList_compactItems]
  rfl

theorem chars_object (members : List (String × Json)) :
    (object members).chars = '\x7b' :: (joined memberChars members ++ ['\x7d']) := by
  rw [chars, compact, String.toList_append, String.toList_append, toList_compactMembers]
  rfl

/-- No value begins with the bracket that closes an array. -/
theorem Textual.chars_append_ne {v : Json} (h : v.Textual) (s t : List Char) : v.chars ++ s ≠ ']' :: t := by
  cases h with
  | string s => simp [chars_string, toList_quoted]
  | array => simp [chars_array]
  | object => simp [chars_object]

/-- **The text of a value can be split off** from what follows it. -/
theorem compact_tellsApart {v : Json} (h : v.Textual) : TellsApart chars Textual v := by
  induction h with
  | string s =>
    intro w rest rest' hw heq
    cases hw with
    | string s' =>
      obtain ⟨rfl, hrest⟩ := quoted_tellsApart s s' rest rest' trivial heq
      exact ⟨rfl, hrest⟩
    | array => simp [chars_string, toList_quoted, chars_array] at heq
    | object => simp [chars_string, toList_quoted, chars_object] at heq
  | @array items below ih =>
    intro w rest rest' hw heq
    cases hw with
    | string s' => simp [chars_string, toList_quoted, chars_array] at heq
    | @array items' below' =>
      simp only [chars_array, List.cons_append, List.append_assoc, List.nil_append, List.cons.injEq,
        true_and] at heq
      obtain ⟨rfl, hrest⟩ := TellsApart.joined (by decide) (fun v s t hv => hv.chars_append_ne s t)
        (fun v hv => ⟨below v hv, ih v hv⟩) below' heq
      exact ⟨rfl, hrest⟩
    | object => simp [chars_array, chars_object] at heq
  | @object members below ih =>
    intro w rest rest' hw heq
    cases hw with
    | string s' => simp [chars_string, toList_quoted, chars_object] at heq
    | array => simp [chars_array, chars_object] at heq
    | @object members' below' =>
      simp only [chars_object, List.cons_append, List.append_assoc, List.nil_append, List.cons.injEq,
        true_and] at heq
      -- a member is its name and its value, split off one after the other
      have hmember : ∀ m ∈ members, TellsApart memberChars (fun m => m.2.Textual) m := by
        intro m hm m' s t hm' hmm'
        rw [memberChars, memberChars, List.append_assoc, List.append_assoc] at hmm'
        obtain ⟨hname, hvalue⟩ := quoted_tellsApart m.1 m'.1 _ _ trivial hmm'
        simp only [List.cons_append, List.cons.injEq, true_and] at hvalue
        obtain ⟨hvalue, hst⟩ := ih m hm m'.2 s t hm' hvalue
        exact ⟨Prod.ext hname hvalue, hst⟩
      obtain ⟨rfl, hrest⟩ := TellsApart.joined (P := fun m : String × Json => m.2.Textual) (by decide)
        (fun m s t _ => by simp [memberChars, toList_quoted])
        (fun m hm => ⟨below m hm, hmember m hm⟩) below' heq
      exact ⟨rfl, hrest⟩

/-- **Values with the same text are the same.** No text of a value is the beginning of another one
that goes on, so that values can be split off one by one. -/
theorem compact_inj {v w : Json} (hv : v.Textual) (hw : w.Textual) (h : v.compact = w.compact) : v = w :=
  (compact_tellsApart hv w [] [] hw (congrArg (fun text => text.toList ++ []) h)).1

end Json

end FormSchema
