import Mathlib.Data.String.Basic
import FormSchema.Proofs.Registry.KeyOrder

/-!
# The order of bytes

Texts are compared by their characters, and their encodings in UTF-8 byte by byte. Both orders are the same:
a greater character has a greater byte where its encoding first differs, whatever comes after it. So keys that
are in order are in the order of their bytes.

The encoding has four layouts, of one to four bytes. A first byte says which layout it begins, and greater
layouts have greater first bytes; so two characters of different layouts differ in their first bytes already.
Within one layout the bytes are the digits of the character to the base of 64, and numbers with the same
number of digits are in the order of their digits. Nowhere does it matter what follows, which is why every
statement about one character carries what comes after it.

* `Text.bytes` — the encoding of a text.
* **`Text.bytes_lt_iff`** — of two texts the lesser one has the lesser bytes.
* **`FormKey.before_iff_bytes`** — keys come one before another by the bytes of group and id.
-/

namespace FormSchema

namespace Text

/-- The bytes of a text. -/
def bytes (s : String) : List UInt8 := s.toUTF8.data.toList

theorem bytes_eq_flatMap (s : String) : bytes s = s.toList.flatMap String.utf8EncodeChar := by
  conv_lhs => rw [bytes, ← String.ofList_toList (s := s)]
  exact List.toList_data_toByteArray

/-! ## Encoded characters

The encoder of the library decides between the layouts by cases and masks bits in each of them. Here the same
bytes are given by division: a first byte, and then as many bytes with six bits each as the layout has. -/

section Characters

variable {m n : Nat}

theorem ofNat_cons_lt {a b : Nat} (h : a < b) (hb : b < 256) (xs ys : List UInt8) :
    UInt8.ofNat a :: xs < UInt8.ofNat b :: ys :=
  List.Lex.rel ((UInt8.ofNat_lt_iff_lt (Nat.lt_trans h hb) hb).mpr h)

/-- The last bytes of the encoding of a number, `k` of them, with six bits each. -/
def trail : Nat → Nat → List UInt8
  | 0, _ => []
  | k + 1, n => UInt8.ofNat (n / 64 ^ k % 64 + 128) :: trail k n

/-- How many bytes come after the first one, and what is added to the first one. -/
def layout (n : Nat) : Nat × Nat :=
  if n ≤ 127 then (0, 0) else if n ≤ 2047 then (1, 192) else if n ≤ 65535 then (2, 224) else (3, 240)

/-- The first byte, which holds what does not fit into those after it. -/
def lead (n : Nat) : Nat := n / 64 ^ (layout n).1 + (layout n).2

theorem lead_lt (h : n < 1114112) : lead n < 256 := by
  rw [lead, layout]
  split_ifs <;> simp <;> omega

/-- A lesser number with another layout has a lesser first byte, because the ranges of first bytes do not
overlap: below 128, then from 192, from 224 and from 240 on. -/
theorem lead_lt_lead (h : m < n) (hlayout : layout m ≠ layout n) : lead m < lead n := by
  rw [lead, lead]
  revert hlayout
  rw [layout, layout]
  split_ifs <;> simp <;> omega

def encoded (n : Nat) : List UInt8 := UInt8.ofNat (lead n) :: trail (layout n).1 n

theorem toNat_lt (c : Char) : c.val.toNat < 1114112 := by
  rcases c.valid with h | h
  · exact Nat.lt_trans h (by decide)
  · exact h.2

theorem utf8EncodeChar_eq_encoded (c : Char) : String.utf8EncodeChar c = encoded c.val.toNat := by
  have hmax := toNat_lt c
  rw [String.utf8EncodeChar, encoded, lead, layout]
  generalize c.val.toNat = n at hmax ⊢
  split
  · simp [trail]
  · split
    · have hfirst : n / 64 % 32 = n / 64 := by omega
      simp [trail, hfirst]
    · split
      · have hfirst : n / 4096 % 16 = n / 4096 := by omega
        simp [trail, hfirst]
      · have hfirst : n / 262144 % 8 = n / 262144 := by omega
        simp [trail, hfirst]

/-- Numbers that differ in their last bytes only are told apart by these. -/
theorem trail_append_lt {k : Nat} (h : m < n) (hsame : m / 64 ^ k = n / 64 ^ k) (xs ys : List UInt8) :
    trail k m ++ xs < trail k n ++ ys := by
  induction k with
  | zero =>
    rw [Nat.pow_zero, Nat.div_one, Nat.div_one] at hsame
    exact absurd hsame (Nat.ne_of_lt h)
  | succ k ih =>
    rw [Nat.pow_succ, ← Nat.div_div_eq_div_mul, ← Nat.div_div_eq_div_mul] at hsame
    have hle : m / 64 ^ k ≤ n / 64 ^ k := Nat.div_le_div_right (Nat.le_of_lt h)
    rw [trail, trail]
    -- either the first of these bytes is the same, or it decides
    rcases Nat.eq_or_lt_of_le hle with heq | hlt
    · rw [heq]
      exact List.Lex.cons (ih heq)
    · exact ofNat_cons_lt (by omega) (by omega) _ _

/-- Of two numbers the lesser one has the lesser bytes. Either the layouts differ and the first bytes decide, or
they are the same, and then the first digit that differs does. -/
theorem encoded_append_lt (h : m < n) (hmax : n < 1114112) (xs ys : List UInt8) :
    encoded m ++ xs < encoded n ++ ys := by
  rw [encoded, encoded]
  by_cases hlayout : layout m = layout n
  · have hle : m / 64 ^ (layout n).1 ≤ n / 64 ^ (layout n).1 := Nat.div_le_div_right (Nat.le_of_lt h)
    rcases Nat.eq_or_lt_of_le hle with heq | hlt
    · rw [lead, hlayout, heq]
      exact List.Lex.cons (trail_append_lt h heq xs ys)
    · refine ofNat_cons_lt ?_ (lead_lt hmax) _ _
      rw [lead, hlayout]
      exact Nat.add_lt_add_right hlt _
  · exact ofNat_cons_lt (lead_lt_lead h hlayout) (lead_lt hmax) _ _

/-- **The lesser character has the lesser bytes**, whatever comes after them. -/
theorem utf8EncodeChar_append_lt {c d : Char} (h : c < d) (xs ys : List UInt8) :
    String.utf8EncodeChar c ++ xs < String.utf8EncodeChar d ++ ys := by
  rw [utf8EncodeChar_eq_encoded, utf8EncodeChar_eq_encoded]
  exact encoded_append_lt (UInt32.lt_iff_toNat_lt.mp (Char.lt_def.mp h)) (toNat_lt d) xs ys

end Characters

/-! ## Encoded texts

A text is encoded character by character. Where two texts differ first, the encodings differ within one
character, and what was said of characters applies with the rest of both texts after it. -/

theorem flatMap_lt {cs ds : List Char} (h : cs < ds) :
    cs.flatMap String.utf8EncodeChar < ds.flatMap String.utf8EncodeChar := by
  induction h with
  | @nil d ds =>
    rw [List.flatMap_nil, List.flatMap_cons, utf8EncodeChar_eq_encoded]
    exact List.Lex.nil
  | cons _ ih => exact List.append_left_lt ih
  | rel hlt => exact utf8EncodeChar_append_lt hlt _ _

/-- **The order of texts is the order of their bytes.** -/
theorem bytes_lt_iff {s t : String} : bytes s < bytes t ↔ s < t := by
  have hmono : ∀ {s t : String}, s < t → bytes s < bytes t := by
    intro s t h
    rw [bytes_eq_flatMap, bytes_eq_flatMap]
    exact flatMap_lt (String.lt_iff_toList_lt.mp h)
  refine ⟨fun h => ?_, hmono⟩
  -- the other direction needs no look at bytes: the order of texts is total
  rcases lt_trichotomy s t with hlt | rfl | hgt
  · exact hlt
  · exact absurd h (List.lt_irrefl _)
  · exact absurd h (List.lt_asymm (hmono hgt))

end Text

/-- **The order of keys** is that of the bytes of their groups, and then of the bytes of their ids. -/
theorem FormKey.before_iff_bytes {a b : FormKey} :
    a.before b = true ↔ Text.bytes a.group < Text.bytes b.group ∨
      (a.group = b.group ∧ Text.bytes a.id < Text.bytes b.id) := by
  rw [before_iff, Text.bytes_lt_iff, Text.bytes_lt_iff]

end FormSchema
