import FormSchema.Toml.Quoted
import Mathlib.Data.List.Basic

/-!
# TOML strings that are read back

A string is written in one of four ways, depending on what is in it: in quotes or in apostrophes, and on one
line or on several. Whichever is chosen, reading gives the string back and stops behind it. On several lines
some care is needed, since up to two marks may stand before the three that close a string, and three of them
in a row would close it too early.

For each of the four ways there is one statement: the reader for it, applied to what is written for
the characters with the closing mark and anything else behind, gives the characters and leaves what
was behind. The statements are proved by induction on the characters, with a count of the marks that
have been written just before. The count is what keeps the claim true along the way. Where it says
that no more than two quotes can be pending, three in a row never come about before the end; where
it says that a run of apostrophes stays below three, the choice of this way was right to begin with.

The choice itself is a matter of the last section. It only has to be checked that each way is chosen
for strings that it can hold.

* **`Toml.readEscape_code`** — a character is read back from its escape.
* **`Toml.readBasic_escapeAll`**, **`Toml.readLiteral_append`** — strings on one line.
* **`Toml.readBasicLines_escapeAll`**, **`Toml.readLiteralLines_append`** — strings on several lines.
* **`Toml.readString_stringChars`** — strings as they are written.
-/

namespace FormSchema.Toml

/-- A character of a class is none that is not in the class. -/
theorem ne_of_holds {p : Char → Bool} {c d : Char} (hc : p c = true) (hd : p d = false) : c ≠ d :=
  ne_of_apply_ne p (by simp [hc, hd])

/-! ## Escapes

Some characters have a short escape, all others are written as a code of four digits. Codes are
written for small characters only, because nothing else has to be escaped. -/

theorem hexValue?_hexDigit (n : Nat) : hexValue? (hexDigit n) = some (n % 16) := by
  have hdigits : ∀ m < 16, hexValue? (Nat.digitChar m).toUpper = some m := by decide
  exact hdigits _ (Nat.mod_lt n (by decide))

/-- What stands for a character behind a backslash. -/
def code (c : Char) : List Char := (escaped c).tail

theorem escaped_eq (c : Char) : escaped c = '\\' :: code c := rfl

theorem coded?_hexDigits {c : Char} (h : c.toNat < 256) (rest : List Char) :
    coded? 4 ('0' :: '0' :: hexDigit (c.toNat / 16) :: hexDigit c.toNat :: rest) = some c := by
  have hzero : hexValue? '0' = some 0 := by decide
  have hcode : ((0 * 16 + 0) * 16 + c.toNat / 16 % 16) * 16 + c.toNat % 16 = c.toNat := by omega
  have hvalid : c.toNat.isValidChar := Or.inl (by omega)
  simp only [coded?, List.take, List.foldlM_cons, List.foldlM_nil, hexValue?_hexDigit, hzero, Option.map_some,
    Option.bind_eq_bind, Option.bind_some, Option.pure_def, hcode]
  simp [hvalid]

/-- **A character is read back** from its escape. -/
theorem readEscape_code {c : Char} (h : c.toNat < 256) (rest : List Char) :
    readEscape (code c ++ rest) = some (c, (code c).length) := by
  unfold code escaped
  split
  all_goals simp [readEscape, coded?_hexDigits h]

/-! ## One line

A character is either escaped or stands for itself. The two conditions of the writer and of the
reader are compared here, once for all ways: what the writer leaves as it is, the reader accepts as
it is. -/

/-- Characters that are written as they are. -/
theorem isInline_of_not {c : Char} (hcontrol : isControl c = false) (hline : c ≠ '\n') :
    isInline c = true := by
  simp [isInline, hcontrol, hline]

theorem toNat_lt_of_isControl {c : Char} (h : isControl c = true) : c.toNat < 256 := by
  simp only [isControl, Bool.or_eq_true, Bool.and_eq_true, decide_eq_true_eq] at h
  rcases h with ⟨⟨hlow, -⟩, -⟩ | rfl
  · omega
  · decide

/-- A character that is escaped has a short code. -/
theorem toNat_lt_of_escaped {lines : Bool} {c : Char}
    (h : (isControl c || c = '\\' || c = '\t' || (c = '\n' && !lines)) = true) : c.toNat < 256 := by
  simp only [Bool.or_eq_true, Bool.and_eq_true, decide_eq_true_eq] at h
  rcases h with ((hcontrol | rfl) | rfl) | ⟨rfl, -⟩
  · exact toNat_lt_of_isControl hcontrol
  all_goals decide

theorem plain_of_not_escaped {lines : Bool} {c : Char}
    (h : ¬ (isControl c || c = '\\' || c = '\t' || (c = '\n' && !lines)) = true) :
    isControl c = false ∧ c ≠ '\\' ∧ (lines = false → c ≠ '\n') := by
  simp only [Bool.or_eq_true, Bool.and_eq_true, decide_eq_true_eq, not_or, not_and, Bool.not_eq_true,
    Bool.not_eq_false'] at h
  obtain ⟨⟨⟨hcontrol, hslash⟩, -⟩, hline⟩ := h
  refine ⟨hcontrol, hslash, fun hlines heq => ?_⟩
  have htrue := hline heq
  simp [hlines] at htrue

theorem readBasic_escaped {c : Char} (h : c.toNat < 256) (rest : List Char) :
    readBasic (escaped c ++ rest) = .cons c (readBasic rest) := by
  rw [escaped_eq, List.cons_append, readBasic, readEscape_code h]
  simp

/-- **A string in quotes on one line.** Every quote within it is escaped, and so the first one that
is not ends the string. -/
theorem readBasic_escapeAll (quotes : Nat) (cs rest : List Char) :
    readBasic (escapeAll false quotes cs ++ '\x22' :: rest) = .ok (cs, rest) := by
  induction cs generalizing quotes with
  | nil => simp [escapeAll, readBasic]
  | cons c cs ih =>
    rw [escapeAll]
    -- on one line a quote is always escaped, so the first bare one is the end
    split
    · next hquote =>
      subst hquote
      simp [readBasic_escaped (c := '\x22') (by decide), ih, Parse.cons, Except.map]
    · next hquote =>
      split
      · next hescape =>
        rw [List.append_assoc, readBasic_escaped (toNat_lt_of_escaped hescape), ih]
        rfl
      · next hescape =>
        obtain ⟨hcontrol, hslash, hline⟩ := plain_of_not_escaped hescape
        rw [List.cons_append, readBasic, if_neg hquote, if_neg hslash,
          if_pos (isInline_of_not hcontrol (hline rfl)), ih]
        rfl

/-- **A string in apostrophes on one line.** Nothing is escaped between apostrophes, which is why
there may be none within. -/
theorem readLiteral_append {cs : List Char} (hcontrol : ∀ c ∈ cs, isControl c = false) (hline : '\n' ∉ cs)
    (hmark : '\x27' ∉ cs) (rest : List Char) : readLiteral (cs ++ '\x27' :: rest) = .ok (cs, rest) := by
  induction cs with
  | nil => simp [readLiteral]
  | cons c cs ih =>
    simp only [List.mem_cons, not_or] at hline hmark
    obtain ⟨hc, hcs⟩ := List.forall_mem_cons.mp hcontrol
    rw [List.cons_append, readLiteral, if_neg (Ne.symm hmark.1),
      if_pos (isInline_of_not hc (Ne.symm hline.1)), ih hcs hline.2 hmark.2]
    rfl

/-! ## Several lines

The three marks that close a string may be preceded by up to two that belong to it, so the reader
looks ahead. For the induction one has to know that it does not see three marks too early, which is
what the count of pending marks tells. -/

/-- Marks that stand before the three at the end belong to the string. -/
theorem readEnd_replicate {mark : Char} {k : Nat} (hk : k ≤ 2) {rest : List Char}
    (hrest : rest.head? ≠ some mark) :
    readEnd mark (List.replicate k mark ++ rest) = (List.replicate k mark, rest) := by
  have hnone : rest.takeWhile (· = mark) = [] := by
    cases rest with
    | nil => rfl
    | cons c rest =>
      have hc : c ≠ mark := by simpa using hrest
      simp [hc]
  have hmarks : (List.replicate k mark ++ rest).takeWhile (· = mark) = List.replicate k mark := by
    rw [List.takeWhile_append_of_pos (by simp), hnone, List.append_nil]
  simp [readEnd, hmarks, Nat.min_eq_right hk]

theorem replicate_append_marks (mark : Char) (k : Nat) (rest : List Char) :
    List.replicate k mark ++ mark :: mark :: mark :: rest =
      mark :: mark :: mark :: (List.replicate k mark ++ rest) := by
  induction k with
  | zero => rfl
  | succ k ih => rw [List.replicate_succ, List.cons_append, ih, List.cons_append]

/-- How what is written for a character begins: by no control character, by a line feed only for a line feed,
and by a quote only for one of the first two quotes in a row on several lines. -/
theorem escapeAll_head (lines : Bool) (quotes : Nat) (c : Char) (cs : List Char) :
    ∃ d ds, escapeAll lines quotes (c :: cs) = d :: ds ∧ isControl d = false ∧
      (d = '\n' → c = '\n') ∧ (d = '\x22' → c = '\x22' ∧ lines = true ∧ quotes < 2) := by
  rw [escapeAll]
  split_ifs with hquote hfew hescape
  · simp only [Bool.and_eq_true, decide_eq_true_eq] at hfew
    exact ⟨c, _, rfl, by rw [hquote]; decide, id, fun _ => ⟨hquote, hfew⟩⟩
  · exact ⟨'\\', _, rfl, by decide, fun h => absurd h (by decide), fun h => absurd h (by decide)⟩
  · exact ⟨'\\', _, rfl, by decide, fun h => absurd h (by decide), fun h => absurd h (by decide)⟩
  · exact ⟨c, _, rfl, (plain_of_not_escaped hescape).1, id, fun h => absurd h hquote⟩

section Quotes

variable {c : Char} {k quotes : Nat} {cs rest : List Char}

theorem readBasicLines_end (hk : k ≤ 2) (hrest : rest.head? ≠ some '\x22') :
    readBasicLines (List.replicate k '\x22' ++ '\x22' :: '\x22' :: '\x22' :: rest) =
      .ok (List.replicate k '\x22', rest) := by
  rw [replicate_append_marks, readBasicLines, readEnd_replicate hk hrest]

theorem readBasicLines_plain (hslash : c ≠ '\\') (hcontrol : isControl c = false)
    (hmarks : c = '\x22' → ∀ r, cs ≠ '\x22' :: '\x22' :: r) :
    readBasicLines (c :: cs) = .cons c (readBasicLines cs) := by
  rw [readBasicLines, if_neg hslash, hcontrol]
  · rfl
  · exact fun r hc hr => hmarks hc r hr
  · rintro r rfl -
    exact absurd hcontrol (by decide)

/-- A backslash does not join lines when an escape comes after it. -/
theorem afterBreak?_code (c : Char) (rest : List Char) :
    afterBreak? ((code c ++ rest).dropWhile isBlank) = none := by
  unfold code escaped
  split
  all_goals rfl

theorem readBasicLines_escaped (h : c.toNat < 256) (rest : List Char) :
    readBasicLines (escaped c ++ rest) = .cons c (readBasicLines rest) := by
  rw [escaped_eq, List.cons_append, readBasicLines, afterBreak?_code, readEscape_code h]
  · simp
  · simp
  · simp

/-- A run of quotes that is short enough is written as it is. -/
theorem escapeAll_replicate (h : quotes + k ≤ 2) :
    escapeAll true quotes (List.replicate k '\x22') = List.replicate k '\x22' := by
  induction k generalizing quotes with
  | zero => rfl
  | succ k ih =>
    have hlt : quotes < 2 := by omega
    rw [List.replicate_succ, escapeAll, if_pos rfl, if_pos (by simpa using hlt), ih (by omega)]

/-- No three quotes stand in a row before those that close the string. -/
theorem escapeAll_ne_marks (hquotes : 1 ≤ quotes) (hle : quotes ≤ 2)
    (hcs : ∀ k, quotes + k ≤ 2 → cs ≠ List.replicate k '\x22') (r : List Char) :
    escapeAll true quotes cs ++ rest ≠ '\x22' :: '\x22' :: r := by
  cases cs with
  | nil => exact absurd rfl (hcs 0 hle)
  | cons c cs =>
    obtain ⟨d, ds, heq, -, -, hd⟩ := escapeAll_head true quotes c cs
    by_cases hquote : d = '\x22'
    · -- the second of two quotes: the third one would be escaped
      obtain ⟨rfl, -, hlt⟩ := hd hquote
      obtain rfl : quotes = 1 := by omega
      rw [escapeAll, if_pos rfl, if_pos (by decide)]
      cases cs with
      | nil => exact absurd rfl (hcs 1 (Nat.le_refl 2))
      | cons e es =>
        obtain ⟨f, fs, heq', -, -, hf⟩ := escapeAll_head true 2 e es
        have hne : f ≠ '\x22' := fun h => Nat.lt_irrefl 2 (hf h).2.2
        rw [heq']
        simp [hne]
    · rw [heq]
      simp [hquote]

/-- **A string in quotes on several lines.** `quotes` counts the quotes that were written just
before. The induction is on the characters; either all that is left are quotes that may stand before
the closing ones, or the next character is not the beginning of three quotes. -/
theorem readBasicLines_escapeAll (hquotes : quotes ≤ 2) (hrest : rest.head? ≠ some '\x22') :
    readBasicLines (escapeAll true quotes cs ++ '\x22' :: '\x22' :: '\x22' :: rest) = .ok (cs, rest) := by
  induction cs generalizing quotes with
  | nil => exact readBasicLines_end (k := 0) (Nat.zero_le 2) hrest
  | cons c cs ih =>
    by_cases hend : ∃ k, quotes + k ≤ 2 ∧ c :: cs = List.replicate k '\x22'
    · -- at the end of the string the reader meets these quotes and the closing ones together
      obtain ⟨k, hk, heq⟩ := hend
      rw [heq, escapeAll_replicate hk]
      exact readBasicLines_end (by omega) hrest
    · rw [escapeAll]
      split_ifs with hquote hfew hescape
      · -- a quote that is followed by something else, after another one at most
        subst hquote
        simp only [Bool.true_and, decide_eq_true_eq] at hfew
        have hmarks : ∀ k, quotes + 1 + k ≤ 2 → cs ≠ List.replicate k '\x22' := by
          rintro k hk rfl
          exact hend ⟨k + 1, by omega, rfl⟩
        rw [List.cons_append, readBasicLines_plain (by decide) (by decide)
          fun _ => escapeAll_ne_marks (by omega) (by omega) hmarks, ih (by omega)]
        rfl
      · -- a third quote in a row is escaped
        subst hquote
        rw [List.append_assoc, readBasicLines_escaped (by decide), ih (Nat.zero_le 2)]
        rfl
      · -- another character that needs an escape
        rw [List.append_assoc, readBasicLines_escaped (toNat_lt_of_escaped hescape), ih (Nat.zero_le 2)]
        rfl
      · obtain ⟨hcontrol, hslash, -⟩ := plain_of_not_escaped hescape
        rw [List.cons_append, readBasicLines_plain hslash hcontrol fun h => absurd h hquote,
          ih (Nat.zero_le 2)]
        rfl

end Quotes

section Apostrophes

variable {c : Char} {k run : Nat} {cs rest : List Char}

theorem le_longestRun (mark : Char) (run : Nat) (cs : List Char) : run ≤ longestRun mark run cs := by
  induction cs generalizing run with
  | nil => exact Nat.le_refl run
  | cons c cs ih =>
    rw [longestRun]
    split
    · exact Nat.le_trans (Nat.le_succ run) (ih (run + 1))
    · exact Nat.le_max_left _ _

/-- Where the longest run is empty there is no such character. -/
theorem notMem_of_longestRun {mark : Char} (h : longestRun mark 0 cs = 0) : mark ∉ cs := by
  induction cs with
  | nil => exact List.not_mem_nil
  | cons c cs ih =>
    rw [longestRun] at h
    split at h
    · have hle := le_longestRun mark (0 + 1) cs
      omega
    · next hc =>
      have hcs : longestRun mark 0 cs = 0 := by omega
      exact List.mem_cons.not.mpr (not_or.mpr ⟨Ne.symm hc, ih hcs⟩)

theorem readLiteralLines_end (hk : k ≤ 2) (hrest : rest.head? ≠ some '\x27') :
    readLiteralLines (List.replicate k '\x27' ++ '\x27' :: '\x27' :: '\x27' :: rest) =
      .ok (List.replicate k '\x27', rest) := by
  rw [replicate_append_marks, readLiteralLines, readEnd_replicate hk hrest]

theorem readLiteralLines_plain (hcontrol : isControl c = false)
    (hmarks : c = '\x27' → ∀ r, cs ≠ '\x27' :: '\x27' :: r) :
    readLiteralLines (c :: cs) = .cons c (readLiteralLines cs) := by
  rw [readLiteralLines, hcontrol]
  · rfl
  · exact fun r hc hr => hmarks hc r hr
  · rintro r rfl -
    exact absurd hcontrol (by decide)

/-- No three apostrophes stand in a row before those that close the string. -/
theorem append_ne_marks (hmarks : longestRun '\x27' (run + 1) cs ≤ 2)
    (hcs : ∀ k, k < 2 → cs ≠ List.replicate k '\x27') (r : List Char) :
    cs ++ '\x27' :: '\x27' :: '\x27' :: rest ≠ '\x27' :: '\x27' :: r := by
  match cs with
  | [] => exact absurd rfl (hcs 0 (by decide))
  | [d] =>
    rintro heq
    obtain rfl : d = '\x27' := (List.cons.inj heq).1
    exact hcs 1 (by decide) rfl
  | d :: e :: cs =>
    -- the third of three in a row would be too many
    rintro heq
    simp only [List.cons_append, List.cons.injEq] at heq
    obtain ⟨rfl, rfl, -⟩ := heq
    have hle := le_longestRun '\x27' (run + 1 + 1 + 1) cs
    simp only [longestRun, if_true] at hmarks
    omega

/-- **A string in apostrophes on several lines.** `run` counts the apostrophes just before. There
is no escaping here, so the bound on the longest run of apostrophes takes the place of the count. -/
theorem readLiteralLines_append (hcontrol : ∀ c ∈ cs, isControl c = false)
    (hmarks : longestRun '\x27' run cs ≤ 2) (hrest : rest.head? ≠ some '\x27') :
    readLiteralLines (cs ++ '\x27' :: '\x27' :: '\x27' :: rest) = .ok (cs, rest) := by
  induction cs generalizing run with
  | nil => exact readLiteralLines_end (k := 0) (Nat.zero_le 2) hrest
  | cons c cs ih =>
    obtain ⟨hc, hcs⟩ := List.forall_mem_cons.mp hcontrol
    rw [longestRun] at hmarks
    -- as for quotes, what is left may consist of apostrophes alone
    by_cases hend : ∃ k, k ≤ 2 ∧ c :: cs = List.replicate k '\x27'
    · obtain ⟨k, hk, heq⟩ := hend
      rw [heq]
      exact readLiteralLines_end hk hrest
    · split at hmarks
      · next hmark =>
        subst hmark
        have hfew : ∀ k, k < 2 → cs ≠ List.replicate k '\x27' := by
          rintro k hk rfl
          exact hend ⟨k + 1, hk, rfl⟩
        rw [List.cons_append, readLiteralLines_plain hc fun _ => append_ne_marks hmarks hfew, ih hcs hmarks]
        rfl
      · next hother =>
        have hrun : longestRun '\x27' 0 cs ≤ 2 := Nat.le_trans (Nat.le_max_right _ _) hmarks
        rw [List.cons_append, readLiteralLines_plain hc fun h => absurd h hother, ih hcs hrun]
        rfl

end Apostrophes

/-! ## As they are written

A line break is put behind the opening marks where the string has several lines, and is dropped
again by the reader. The four ways are put together by the conditions under which the writer takes
them. -/

section Strings

variable {cs body rest : List Char}

/-- What comes after a string must not be taken for a part of it. -/
def Follows (rest : List Char) : Prop := rest.head? ≠ some '\x22' ∧ rest.head? ≠ some '\x27'

theorem between_false (mark : Char) (cs body rest : List Char) :
    between [mark] false cs body ++ rest = mark :: (body ++ mark :: rest) := by
  simp [between]

theorem between_true (mark : Char) (cs body rest : List Char) :
    between [mark] true cs body ++ rest = mark :: mark :: mark ::
      ((if cs.contains '\n' then ['\n'] else []) ++ (body ++ mark :: mark :: mark :: rest)) := by
  simp [between]

theorem readString_quote (h : ∀ r, body ≠ '\x22' :: '\x22' :: r) :
    readString ('\x22' :: body) = readBasic body := by
  rw [readString]
  exact fun r hr => h r hr

theorem readString_apostrophe (h : ∀ r, body ≠ '\x27' :: '\x27' :: r) :
    readString ('\x27' :: body) = readLiteral body := by
  rw [readString]
  exact fun r hr => h r hr

theorem dropBreak_cons {c : Char} (hline : c ≠ '\n') (hreturn : c ≠ '\r') (cs : List Char) :
    dropBreak (c :: cs) = c :: cs := by
  rw [dropBreak, afterBreak?]
  · rfl
  · intro r hr
    exact hline (List.cons.inj hr).1
  · intro r hr
    exact hreturn (List.cons.inj hr).1

/-- The line break that comes first is the one that was put there, if any. -/
theorem dropBreak_between (h : '\n' ∉ cs → ∃ c r, body = c :: r ∧ c ≠ '\n' ∧ c ≠ '\r') :
    dropBreak ((if cs.contains '\n' then ['\n'] else []) ++ body) = body := by
  by_cases hline : '\n' ∈ cs
  · simp [hline, dropBreak, afterBreak?]
  · obtain ⟨c, r, rfl, hc, hr⟩ := h hline
    have hcontains : cs.contains '\n' = false := by simpa using hline
    rw [hcontains]
    exact dropBreak_cons hc hr r

theorem ne_return_of_isControl {c : Char} (h : isControl c = false) : c ≠ '\r' :=
  (ne_of_holds (by decide) h).symm

theorem readString_quotes (cs : List Char) (hrest : Follows rest) :
    readString (between ['\x22'] false cs (escapeAll false 0 cs) ++ rest) = .ok (cs, rest) := by
  have hmarks : ∀ r, escapeAll false 0 cs ++ '\x22' :: rest ≠ '\x22' :: '\x22' :: r := by
    cases cs with
    | nil =>
      rintro r heq
      rw [escapeAll, List.nil_append, List.cons.injEq] at heq
      exact hrest.1 (by rw [heq.2]; rfl)
    | cons c cs =>
      obtain ⟨d, ds, heq, -, -, hd⟩ := escapeAll_head false 0 c cs
      have hne : d ≠ '\x22' := fun h => absurd (hd h).2.1 (by decide)
      simp [heq, hne]
  rw [between_false, readString_quote hmarks, readBasic_escapeAll]

theorem readString_apostrophes (hcontrol : ∀ c ∈ cs, isControl c = false) (hline : '\n' ∉ cs)
    (hmark : '\x27' ∉ cs) (hrest : Follows rest) :
    readString (between ['\x27'] false cs cs ++ rest) = .ok (cs, rest) := by
  have hmarks : ∀ r, cs ++ '\x27' :: rest ≠ '\x27' :: '\x27' :: r := by
    cases cs with
    | nil =>
      rintro r heq
      rw [List.nil_append, List.cons.injEq] at heq
      exact hrest.2 (by rw [heq.2]; rfl)
    | cons c cs =>
      have hne : c ≠ '\x27' := fun h => hmark (h ▸ List.mem_cons_self)
      simp [hne]
  rw [between_false, readString_apostrophe hmarks, readLiteral_append hcontrol hline hmark]

theorem readString_quoteLines (cs : List Char) (hrest : Follows rest) :
    readString (between ['\x22'] true cs (escapeAll true 0 cs) ++ rest) = .ok (cs, rest) := by
  have hbreak : '\n' ∉ cs → ∃ c r,
      escapeAll true 0 cs ++ '\x22' :: '\x22' :: '\x22' :: rest = c :: r ∧ c ≠ '\n' ∧ c ≠ '\r' := by
    intro hline
    cases cs with
    | nil => exact ⟨'\x22', _, rfl, by decide, by decide⟩
    | cons c cs =>
      obtain ⟨d, ds, heq, hcontrol, hd, -⟩ := escapeAll_head true 0 c cs
      have hc : c ≠ '\n' := fun h => hline (h ▸ List.mem_cons_self)
      exact ⟨d, ds ++ _, by rw [heq]; rfl, fun h => hc (hd h), ne_return_of_isControl hcontrol⟩
  rw [between_true, readString, dropBreak_between hbreak, readBasicLines_escapeAll (Nat.zero_le 2) hrest.1]

theorem readString_apostropheLines (hcontrol : ∀ c ∈ cs, isControl c = false)
    (hmarks : longestRun '\x27' 0 cs ≤ 2) (hrest : Follows rest) :
    readString (between ['\x27'] true cs cs ++ rest) = .ok (cs, rest) := by
  have hbreak : '\n' ∉ cs → ∃ c r,
      cs ++ '\x27' :: '\x27' :: '\x27' :: rest = c :: r ∧ c ≠ '\n' ∧ c ≠ '\r' := by
    intro hline
    cases cs with
    | nil => exact ⟨'\x27', _, rfl, by decide, by decide⟩
    | cons c cs =>
      have hc : c ≠ '\n' := fun h => hline (h ▸ List.mem_cons_self)
      exact ⟨c, cs ++ _, rfl, hc, ne_return_of_isControl (hcontrol c List.mem_cons_self)⟩
  rw [between_true, readString, dropBreak_between hbreak, readLiteralLines_append hcontrol hmarks hrest.2]

/-- **A string is read back** as it is written, whatever is in it. -/
theorem readString_stringChars (cs : List Char) (hrest : Follows rest) :
    readString (stringChars cs ++ rest) = .ok (cs, rest) := by
  have hplain : (!cs.any isControl) = true → ∀ c ∈ cs, isControl c = false := by simp
  have hunbroken : (!cs.contains '\n') = true → '\n' ∉ cs := by simp
  simp only [stringChars]
  -- one case for each of the five ways to write a string
  split_ifs with hquotes hliteral hquoteLines hliteralLines
  · exact readString_quotes cs hrest
  · simp only [Bool.and_eq_true, decide_eq_true_eq] at hliteral
    obtain ⟨⟨hcontrol, hrun⟩, hline⟩ := hliteral
    exact readString_apostrophes (hplain hcontrol) (hunbroken hline) (notMem_of_longestRun hrun) hrest
  · exact readString_quoteLines cs hrest
  · simp only [Bool.and_eq_true, decide_eq_true_eq] at hliteralLines
    exact readString_apostropheLines (hplain hliteralLines.1) hliteralLines.2 hrest
  · cases cs.contains '\n' with
    | false => exact readString_quotes cs hrest
    | true => exact readString_quoteLines cs hrest

/-- A string begins with one of the two marks. -/
theorem stringChars_head (cs : List Char) :
    ∃ r, stringChars cs = '\x22' :: r ∨ stringChars cs = '\x27' :: r := by
  simp only [stringChars, between]
  split_ifs
  all_goals first
    | exact ⟨_, Or.inl rfl⟩
    | exact ⟨_, Or.inr rfl⟩

end Strings

end FormSchema.Toml
