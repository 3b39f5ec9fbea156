import FormSchema.Toml.Reader
import FormSchema.Proofs.Document.Addresses
import FormSchema.Proofs.Toml.Strings

/-!
# TOML lines that are read back

A text of lines, each with a key of its own and a value, is read as the table of these values in the order of
the lines. What is asked of a value is that it is read where a line ends behind it, and strings, numerals and
what is put together from them are such values.

The table that has been read so far is the state of the reader, and the invariant is that it holds
the settings of the lines that were read, in their order. A line adds one entry, as its key is none
of those that are there. Everything else is about where things end: a key at a blank, a numeral at
the end of the line, a value where its own reader stops.

A value is asked for no more than this, and by what it is asked the settings of a program are
independent of how its values are written.

* `Toml.integer?_toDigits` — numerals.
* `Toml.ReadAs` — a text that is read as a value.
* `Toml.Setting` — a key, the text of its value, and the value.
* **`Toml.parse_settings`** — lines, one for each setting.
-/

namespace FormSchema.Toml

/-! ## Numerals

A numeral is tried as a number of several bases and with a sign. Digits alone pass for a decimal
number, and have no zero in front unless they are the numeral of zero. -/

section Numerals

variable {c : Char} {cs : List Char}

theorem digitValue?_of_isDigit (h : c.isDigit = true) : digitValue? 10 c = some (c.toNat - '0'.toNat) := by
  have hbounds : 48 ≤ c.toNat ∧ c.toNat ≤ 57 := by
    simpa [Char.isDigit, UInt32.le_iff_toNat_le] using h
  have hlt : c.toNat - '0'.toNat < 10 := by
    show c.toNat - 48 < 10
    omega
  simp only [digitValue?, h, if_true, Option.filter, hlt, decide_true]

theorem digits?_of_isDigit (hdigits : ∀ c ∈ cs, c.isDigit = true) {fresh : Bool} (hne : fresh = true → cs ≠ [])
    (n : Nat) : digits? 10 n fresh cs = some (Nat.ofDigitChars 10 cs n) := by
  induction cs generalizing n fresh with
  | nil =>
    have hold : fresh = false := by simpa using hne
    rw [digits?, hold]
    rfl
  | cons c cs ih =>
    obtain ⟨hc, hcs⟩ := List.forall_mem_cons.mp hdigits
    rw [digits?, if_neg (ne_of_holds hc (by decide)), digitValue?_of_isDigit hc, Option.bind_some, ih hcs (by simp),
      Nat.ofDigitChars_cons, Nat.mul_comm]

theorem decimal?_of_isDigit (hne : cs ≠ []) (hdigits : ∀ c ∈ cs, c.isDigit = true)
    (hzero : cs.head? = some '0' → cs.length = 1) :
    decimal? cs = some (Nat.ofDigitChars 10 cs 0) := by
  unfold decimal?
  split
  · exact absurd (hzero rfl) (by simp)
  · exact digits?_of_isDigit hdigits (fun _ => hne) 0

/-- Digits have neither a sign nor the mark of another base in front. -/
theorem integer?_of_isDigit (hdigits : ∀ c ∈ cs, c.isDigit = true) :
    integer? cs = (decimal? cs).map fun n => (n : Int) := by
  unfold integer?
  split
  · exact absurd (hdigits 'x' (by simp)) (by decide)
  · exact absurd (hdigits 'o' (by simp)) (by decide)
  · exact absurd (hdigits 'b' (by simp)) (by decide)
  · exact absurd (hdigits '-' (by simp)) (by decide)
  · exact absurd (hdigits '+' (by simp)) (by decide)
  · rfl

theorem isDigit_of_mem_toDigits {n : Nat} (h : c ∈ Nat.toDigits 10 n) : c.isDigit = true :=
  Nat.isDigit_of_mem_toDigits (by decide) (by decide) h

/-- **A numeral** is read as its number. Its digits are all that is read, since it has neither a
sign nor a base. -/
theorem integer?_toDigits (n : Nat) : integer? (Nat.toDigits 10 n) = some (n : Int) := by
  have hzero : (Nat.toDigits 10 n).head? = some '0' → (Nat.toDigits 10 n).length = 1 := by
    intro hhead
    have hn : n = 0 := by
      by_contra hne
      exact Pointer.head?_toDigits_ne_zero (Nat.pos_of_ne_zero hne) hhead
    subst hn
    rfl
  have hdecimal := decimal?_of_isDigit Nat.toDigits_ne_nil (fun c hc => isDigit_of_mem_toDigits hc) hzero
  rw [integer?_of_isDigit fun c hc => isDigit_of_mem_toDigits hc, hdecimal, Nat.ofDigitChars_ten_toDigits]
  rfl

end Numerals

/-! ## Values

A value has to begin with a character that is not passed over between the parts of a line, and has
to be read from where it stands to the end of its line, with as many steps as its text is long. -/

section Values

variable {levels fuel : Nat} {c : Char} {cs : List Char}

/-- What is passed over between the parts of a value and between lines. -/
def isFiller (c : Char) : Bool := isBlank c || c = '\n' || c = '\r' || c = '#'

theorem dropFiller_cons (h : isFiller c = false) (cs : List Char) : dropFiller false (c :: cs) = c :: cs := by
  simp only [isFiller, Bool.or_eq_false_iff, decide_eq_false_iff_not] at h
  obtain ⟨⟨⟨hblank, hline⟩, hreturn⟩, hcomment⟩ := h
  rw [dropFiller]
  · simp [hblank, hline, hcomment]
  · rintro r rfl -
    exact hreturn rfl

theorem dropBlanks_cons (h : isFiller c = false) (cs : List Char) : dropBlanks (c :: cs) = c :: cs := by
  simp only [isFiller, Bool.or_eq_false_iff] at h
  simp [dropBlanks, h.1.1.1]

/-- A text that is read as a value where a line ends behind it. -/
structure ReadAs (text : List Char) (v : Value) : Prop where
  begins : ∃ c cs, text = c :: cs ∧ isFiller c = false
  read : ∀ {levels fuel : Nat}, text.length < fuel → ∀ rest,
    readValue (levels + 1) fuel (text ++ '\n' :: rest) = .ok (v, '\n' :: rest)

theorem readValue_string (s : String) {rest : List Char} (hrest : Follows rest) :
    readValue levels (fuel + 1) (stringChars s.toList ++ rest) = .ok (.string s, rest) := by
  have hread := readString_stringChars s.toList hrest
  obtain ⟨r, hquote | hquote⟩ := stringChars_head s.toList
  all_goals
    rw [hquote, List.cons_append] at hread ⊢
    rw [readValue, hread]
    simp [Except.map]

/-- A string begins with nothing that is passed over. -/
theorem stringChars_begins (cs : List Char) :
    ∃ c r, stringChars cs = c :: r ∧ isFiller c = false ∧ c ≠ ']' := by
  obtain ⟨r, hquote | hquote⟩ := stringChars_head cs
  · exact ⟨'\x22', r, hquote, by decide, by decide⟩
  · exact ⟨'\x27', r, hquote, by decide, by decide⟩

theorem readAs_string (s : String) : ReadAs (stringChars s.toList) (.string s) where
  begins := by
    obtain ⟨c, r, heq, hc, -⟩ := stringChars_begins s.toList
    exact ⟨c, r, heq, hc⟩
  read := by
    rintro levels (_ | fuel) hfuel rest
    · exact absurd hfuel (Nat.not_lt_zero _)
    · exact readValue_string s ⟨by simp, by simp⟩

theorem takeWord_of_isDigit (h : ∀ c ∈ cs, c.isDigit = true) (rest : List Char) :
    takeWord (cs ++ '\n' :: rest) = (cs, '\n' :: rest) := by
  have hword : ∀ c ∈ cs, (!endsWord c) = true := by
    intro c hc
    have hne : ∀ d : Char, d.isDigit = false → c ≠ d := fun d hd => ne_of_holds (h c hc) hd
    simp [endsWord, isBlank, hne]
  have htake : (cs ++ '\n' :: rest).takeWhile (fun c => !endsWord c) = cs := by
    rw [List.takeWhile_append_of_pos hword]
    simp [endsWord]
  simp only [takeWord, htake, List.drop_left]
  rfl

theorem wordValue?_toDigits {n : Nat} (h : n < wordValues 64) :
    wordValue? (Nat.toDigits 10 n) = some (.integer n) := by
  have hword : ∀ word : List Char, word.any (!·.isDigit) = true → Nat.toDigits 10 n ≠ word := by
    rintro word hother rfl
    obtain ⟨c, hc, hdigit⟩ := List.any_eq_true.mp hother
    simp [isDigit_of_mem_toDigits hc] at hdigit
  have hfits : isWord n = true := by
    simp only [isWord, fitsWord, Bool.and_eq_true, decide_eq_true_eq]
    omega
  rw [wordValue?, integer?_toDigits, decide_eq_false (hword "true".toList (by decide)),
    decide_eq_false (hword "false".toList (by decide))]
  simp [hfits]

theorem readValue_digit (h : c.isDigit = true) (cs : List Char) :
    readValue levels (fuel + 1) (c :: cs) = readWord (c :: cs) := by
  have hne : ∀ d r, d.isDigit = false → c :: cs ≠ d :: r := fun d r hd heq =>
    ne_of_holds h hd (List.cons.inj heq).1
  rw [readValue]
  · exact fun r hr => hne _ r (by decide) hr
  · exact fun r hr => hne _ r (by decide) hr
  · exact fun r hr => hne _ r (by decide) hr
  · exact fun r hr => hne _ r (by decide) hr

theorem readAs_integer {n : Nat} (h : n < wordValues 64) : ReadAs (Nat.toDigits 10 n) (.integer n) := by
  have hdigits : ∀ c ∈ Nat.toDigits 10 n, c.isDigit = true := fun c hc => isDigit_of_mem_toDigits hc
  have hvalue := wordValue?_toDigits h
  -- a number is a word of digits, which ends where it is followed by a line end
  have hword := takeWord_of_isDigit hdigits
  cases hds : Nat.toDigits 10 n with
  | nil => exact absurd hds Nat.toDigits_ne_nil
  | cons c cs =>
    rw [hds] at hdigits hvalue hword
    have hc : c.isDigit = true := hdigits c List.mem_cons_self
    refine ⟨⟨c, cs, rfl, ?_⟩, ?_⟩
    · have hne : ∀ d : Char, d.isDigit = false → c ≠ d := fun d hd => ne_of_holds hc hd
      simp [isFiller, isBlank, hne]
    · rintro levels (_ | fuel) hfuel rest
      · exact absurd hfuel (Nat.not_lt_zero _)
      · rw [List.cons_append, readValue_digit hc, ← List.cons_append, readWord, hword]
        simp only [hvalue]

end Values

/-! ## Lines

A setting carries the proof that its text is read as its value, so that a list of settings is a list
of things that can be written and read. The fold over lines then needs the keys to be different and
nothing more. -/

/-- A key without dots, the text of its value, and the value. -/
structure Setting where
  key : String
  text : List Char
  value : Value
  plain : key.toList ≠ [] ∧ ∀ c ∈ key.toList, isKeyChar c = true
  reads : ReadAs text value

namespace Setting

def entry (s : Setting) : String × Value := (s.key, s.value)

/-- The line of a setting. -/
def line (s : Setting) : List Char := s.key.toList ++ ' ' :: '=' :: ' ' :: (s.text ++ ['\n'])

theorem line_append (s : Setting) (rest : List Char) :
    s.line ++ rest = s.key.toList ++ ' ' :: '=' :: ' ' :: (s.text ++ '\n' :: rest) := by
  simp [line]

theorem line_begins (s : Setting) : ∃ c cs, s.line = c :: cs ∧ isKeyChar c = true := by
  obtain ⟨hne, hkey⟩ := s.plain
  obtain ⟨c, cs, hcs⟩ := List.exists_cons_of_ne_nil hne
  refine ⟨c, cs ++ _, by rw [line, hcs]; rfl, hkey c ?_⟩
  rw [hcs]
  exact List.mem_cons_self

end Setting

section Lines

variable {fuel : Nat} {c : Char} {cs rest : List Char} {before : List (String × Value)} {s : Setting}

theorem isFiller_of_isKeyChar (h : isKeyChar c = true) : isFiller c = false := by
  have hne : ∀ d : Char, isKeyChar d = false → c ≠ d := fun d hd => ne_of_holds h hd
  simp (disch := decide) [isFiller, isBlank, hne]

/-- A key without dots ends at a blank. -/
theorem readKey_plain (hne : cs ≠ []) (hkey : ∀ c ∈ cs, isKeyChar c = true) (rest : List Char) :
    readKey (fuel + 1) (cs ++ ' ' :: '=' :: rest) = .ok ([String.ofList cs], '=' :: rest) := by
  -- a blank is not part of a key, and everything before it is
  have hword : (cs ++ ' ' :: '=' :: rest).takeWhile isKeyChar = cs := by
    rw [List.takeWhile_append_of_pos hkey]
    simp [isKeyChar]
  have hrest : (cs ++ ' ' :: '=' :: rest).dropWhile isKeyChar = ' ' :: '=' :: rest := by
    rw [List.dropWhile_append_of_pos hkey]
    simp [isKeyChar]
  have hpart : readKeyPart (cs ++ ' ' :: '=' :: rest) = .ok (String.ofList cs, ' ' :: '=' :: rest) := by
    obtain ⟨c, cs, rfl⟩ := List.exists_cons_of_ne_nil hne
    have hc : isKeyChar c = true := hkey c List.mem_cons_self
    rw [readKeyPart, hword, hrest]
    · simp
    · exact fun r hr => ne_of_holds hc (by decide) (List.cons.inj hr).1
    · exact fun r hr => ne_of_holds hc (by decide) (List.cons.inj hr).1
  rw [readKey, hpart]
  rfl

/-- A new key is put behind those that there are. -/
theorem put_new {p : Progress} (hheader : p.header = []) (horigin : p.root.origin = .header) {key : String}
    (hkey : p.root.get? key = none) (v : Value) :
    p.put [key] v = some ⟨⟨.header, p.root.entries ++ [(key, v)]⟩, []⟩ := by
  obtain ⟨⟨origin, entries⟩, header⟩ := p
  subst hheader horigin
  simp [Progress.put, Table.put, Table.within, Table.add, Table.set, hkey]

theorem readPair_line {p p' : Progress} (hput : p.put [s.key] s.value = some p') (rest : List Char) :
    readPair p (s.line ++ rest) = .ok (p', '\n' :: rest) := by
  obtain ⟨c, cs, htext, hc⟩ := s.reads.begins
  have hblanks : dropBlanks (' ' :: (s.text ++ '\n' :: rest)) = s.text ++ '\n' :: rest := by
    rw [htext]
    exact dropBlanks_cons hc _
  have hvalue : readValue nestingLimit ((' ' :: (s.text ++ '\n' :: rest)).length + 1) (s.text ++ '\n' :: rest) =
      .ok (s.value, '\n' :: rest) := by
    show readValue (79 + 1) _ _ = _
    refine s.reads.read ?_ rest
    simp only [List.length_cons, List.length_append]
    omega
  rw [readPair, s.line_append, readKey_plain s.plain.1 s.plain.2]
  simp only [bind, Except.bind, expect, if_true, hblanks, hvalue, String.ofList_toList, hput, orStop]

/-- **One line more** is one entry more. The line is taken off the text, and its key must not be in
the table yet. -/
theorem readLines_line (hkey : s.key ∉ before.map Prod.fst) (rest : List Char) :
    readLines (fuel + 1) ⟨⟨.header, before⟩, []⟩ (s.line ++ rest) =
      readLines fuel ⟨⟨.header, before ++ [s.entry]⟩, []⟩ rest := by
  -- the key is new, so the entry is put behind the others
  have hnone : Table.get? ⟨.header, before⟩ s.key = none := by
    rw [Table.get?, List.lookup_eq_none_iff]
    intro e he
    exact bne_iff_ne.mpr fun heq => hkey (List.mem_map.mpr ⟨e, he, heq.symm⟩)
  have hpair := readPair_line (s := s) (put_new (p := ⟨⟨.header, before⟩, []⟩) rfl rfl hnone s.value) rest
  obtain ⟨c, cs, hline, hc⟩ := s.line_begins
  have hheader : ∀ r, c :: (cs ++ rest) ≠ '[' :: r := fun r hr =>
    ne_of_holds hc (by decide) (List.cons.inj hr).1
  rw [hline, List.cons_append] at hpair ⊢
  rw [readLines, dropFiller_cons (isFiller_of_isKeyChar hc)]
  split
  · next heq => cases heq
  · split
    · next heq => exact absurd heq (hheader _)
    · rw [hpair]
      rfl

theorem length_le_flatMap {α : Type} {f : α → List Char} {xs : List α} (h : ∀ x ∈ xs, f x ≠ []) :
    xs.length ≤ (xs.flatMap f).length := by
  induction xs with
  | nil => exact Nat.le_refl 0
  | cons x xs ih =>
    obtain ⟨hx, hxs⟩ := List.forall_mem_cons.mp h
    have hpos : 0 < (f x).length := List.length_pos_of_ne_nil hx
    have hrest := ih hxs
    rw [List.flatMap_cons, List.length_append, List.length_cons]
    omega

theorem readLines_settings (settings : List Setting) (hfuel : settings.length < fuel)
    (hkeys : (before.map Prod.fst ++ settings.map Setting.key).Nodup) :
    readLines fuel ⟨⟨.header, before⟩, []⟩ (settings.flatMap Setting.line) =
      .ok ⟨.header, before ++ settings.map Setting.entry⟩ := by
  induction settings generalizing fuel before with
  | nil =>
    obtain ⟨fuel, rfl⟩ := Nat.exists_eq_succ_of_ne_zero (Nat.ne_of_gt hfuel)
    simp [readLines, dropFiller]
  | cons s settings ih =>
    obtain ⟨fuel, rfl⟩ := Nat.exists_eq_succ_of_ne_zero (Nat.ne_of_gt (Nat.zero_lt_of_lt hfuel))
    have hnew : s.key ∉ before.map Prod.fst := fun hmem =>
      (List.nodup_append.mp hkeys).2.2 _ hmem _ List.mem_cons_self rfl
    have hrest : ((before ++ [s.entry]).map Prod.fst ++ settings.map Setting.key).Nodup := by
      simpa [Setting.entry] using hkeys
    rw [List.flatMap_cons, readLines_line hnew, ih (Nat.lt_of_succ_lt_succ hfuel) hrest]
    simp

/-- **A text of lines**, one for each setting, is read as the table of them. -/
theorem parse_settings (settings : List Setting) (hkeys : (settings.map Setting.key).Nodup) :
    parse (String.ofList (settings.flatMap Setting.line)) = .ok ⟨.header, settings.map Setting.entry⟩ := by
  have hlength : settings.length ≤ (settings.flatMap Setting.line).length := by
    refine length_le_flatMap fun s _ => ?_
    obtain ⟨c, cs, hline, -⟩ := s.line_begins
    simp [hline]
  -- a text of settings begins with a key, and so with no mark that would be skipped
  have hmark : (settings.flatMap Setting.line).head? ≠ some '\ufeff' := by
    cases settings with
    | nil => simp
    | cons s settings =>
      obtain ⟨c, cs, hline, hc⟩ := s.line_begins
      have hne : c ≠ '\ufeff' := ne_of_holds hc (by decide)
      simp [hline, hne]
  have hlines : readLines ((settings.flatMap Setting.line).length + 1) ⟨⟨.header, []⟩, []⟩
      (settings.flatMap Setting.line) = .ok ⟨.header, settings.map Setting.entry⟩ :=
    readLines_settings settings (Nat.lt_succ_of_le hlength) (by simpa using hkeys)
  rw [parse, String.toList_ofList]
  simp only [hmark, if_false]
  rw [Table.root, hlines]

end Lines

end FormSchema.Toml
