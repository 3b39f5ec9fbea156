import FormSchema.Config.Text
import FormSchema.Proofs.Toml.Lines

/-!
# Configurations that are saved

A saved configuration states its version and each of its settings in a line. A list of extensions is written in
one of three ways, and the extensions may be any texts. Loading what was saved gives the configuration back: a
setting that was not stated would come back with its standard value, but each is found under its key. So the
version that was written is the version that is read, and turning it into a configuration undoes what was done
before it was written.

* `Config.readAs_listText` — lists of texts, whatever is in them.
* `Config.settings` — what is stated of a configuration.
* **`Config.ofFile_text`** — a saved configuration.
-/

namespace FormSchema.Config

open Toml

/-! ## Lists of texts

An empty list, a list of one text and a list of several are written differently, the last one over
several lines with a comma behind every item. The reader passes over blanks and breaks in front of
items and takes a comma before the closing bracket, so one lemma about each kind of step is enough. -/

section Lists

variable {levels fuel : Nat}

/-- An item in a line of its own. -/
def itemLine (s : String) : List Char := "    ".toList ++ stringChars s.toList ++ ",\n".toList

/-- What stands between the brackets of a list. -/
def itemsText : List String → List Char
  | [] => []
  | [s] => stringChars s.toList
  | ss => '\n' :: ss.flatMap itemLine

theorem toList_listText (ss : List String) : (listText ss).toList = '[' :: (itemsText ss ++ [']']) := by
  match ss with
  | [] => rfl
  | [s] => simp [listText, itemsText, stringText]
  | s :: s' :: ss =>
    have hitem : ∀ s, ("    " ++ stringText s ++ ",\n").toList = itemLine s := by simp [itemLine, stringText]
    simp only [listText, itemsText, String.toList_append, String.toList_join, List.flatMap_map, hitem]
    rfl

/-- What is passed over in front of an item makes no difference. -/
theorem readItems_congr {cs cs' : List Char} (h : dropFiller false cs = dropFiller false cs') :
    readItems levels (fuel + 1) cs = readItems levels (fuel + 1) cs' := by
  rw [readItems, readItems, h]

theorem readItems_end (rest : List Char) : readItems levels (fuel + 1) (']' :: rest) = .ok ([], rest) := by
  rw [readItems, dropFiller_cons (by decide)]
  rfl

theorem readItems_last (s : String) (rest : List Char) :
    readItems levels (fuel + 2) (stringChars s.toList ++ ']' :: rest) = .ok ([.string s], rest) := by
  have hvalue : readValue levels (fuel + 1) (stringChars s.toList ++ ']' :: rest) = .ok (.string s, ']' :: rest) :=
    readValue_string s ⟨by simp, by simp⟩
  obtain ⟨c, r, heq, hc, hbracket⟩ := stringChars_begins s.toList
  rw [heq, List.cons_append] at hvalue ⊢
  rw [readItems, dropFiller_cons hc]
  split
  · next hr => exact absurd (List.cons.inj hr).1 hbracket
  · simp only [bind, Except.bind, hvalue, dropFiller_cons (c := ']') (by decide)]

theorem readItems_next (s : String) (rest : List Char) :
    readItems levels (fuel + 2) (stringChars s.toList ++ ',' :: rest) =
      (readItems levels (fuel + 1) rest).map fun (vs, r) => (.string s :: vs, r) := by
  have hvalue : readValue levels (fuel + 1) (stringChars s.toList ++ ',' :: rest) = .ok (.string s, ',' :: rest) :=
    readValue_string s ⟨by simp, by simp⟩
  obtain ⟨c, r, heq, hc, hbracket⟩ := stringChars_begins s.toList
  rw [heq, List.cons_append] at hvalue ⊢
  rw [readItems, dropFiller_cons hc]
  split
  · next hr => exact absurd (List.cons.inj hr).1 hbracket
  · simp only [bind, Except.bind, hvalue, dropFiller_cons (c := ',') (by decide)]
    cases readItems levels (fuel + 1) rest <;> rfl

/-- Items in lines of their own, with a comma behind each. -/
theorem readItems_lines (ss : List String) (hfuel : ss.length + 2 ≤ fuel) (rest : List Char) :
    readItems levels fuel ('\n' :: (ss.flatMap itemLine ++ ']' :: rest)) = .ok (ss.map .string, rest) := by
  obtain ⟨fuel, rfl⟩ : ∃ k, fuel = k + 2 := ⟨fuel - 2, by omega⟩
  induction ss generalizing fuel with
  | nil =>
    have hfiller : dropFiller false ('\n' :: ']' :: rest) = dropFiller false (']' :: rest) := by
      simp [dropFiller]
    exact (readItems_congr hfiller).trans (readItems_end rest)
  | cons s ss ih =>
    have hfiller : dropFiller false ('\n' :: ((s :: ss).flatMap itemLine ++ ']' :: rest)) =
        dropFiller false (stringChars s.toList ++ ',' :: '\n' :: (ss.flatMap itemLine ++ ']' :: rest)) := by
      simp [itemLine, dropFiller, isBlank]
    obtain ⟨k, rfl⟩ : ∃ k, fuel = k + 1 := ⟨fuel - 1, by simp only [List.length_cons] at hfuel; omega⟩
    rw [readItems_congr hfiller, readItems_next, ih k (by simp only [List.length_cons] at hfuel; omega)]
    rfl

theorem readItems_items (ss : List String) (hfuel : (itemsText ss).length + 2 ≤ fuel) (rest : List Char) :
    readItems levels fuel (itemsText ss ++ ']' :: rest) = .ok (ss.map .string, rest) := by
  obtain ⟨fuel, rfl⟩ : ∃ k, fuel = k + 2 := ⟨fuel - 2, by omega⟩
  match ss with
  | [] => exact readItems_end rest
  | [s] => exact readItems_last s rest
  | s :: s' :: ss =>
    have hlines : (s :: s' :: ss).length ≤ ((s :: s' :: ss).flatMap itemLine).length :=
      length_le_flatMap fun s _ => by simp [itemLine]
    have hitems : itemsText (s :: s' :: ss) = '\n' :: (s :: s' :: ss).flatMap itemLine := rfl
    rw [hitems, List.length_cons] at hfuel
    exact readItems_lines _ (by omega) rest

/-- **A list of texts** is read back. Items stand on lines of their own, each with a comma, and the
last one is closed by the bracket. -/
theorem readAs_listText (ss : List String) : ReadAs (listText ss).toList (.array (ss.map .string)) where
  begins := ⟨'[', _, toList_listText ss, by decide⟩
  read := by
    rintro levels fuel hfuel rest
    rw [toList_listText, List.length_cons, List.length_append] at hfuel
    obtain ⟨fuel, rfl⟩ : ∃ k, fuel = k + 1 := ⟨fuel - 1, by omega⟩
    have htext : (listText ss).toList ++ '\n' :: rest = '[' :: (itemsText ss ++ ']' :: '\n' :: rest) := by
      simp [toList_listText]
    rw [htext, readValue, readItems_items ss (Nat.lt_succ_iff.mp hfuel)]
    rfl

end Lists

/-! ## Configurations

Writing and reading are each factored through the list of settings: the text is made of its lines,
and the table that is read has its entries. So the round trip is a matter of looking four keys up in
a table that has all four. -/

section Configurations

variable {c : Config}

theorem plain_key {key : String} (h : key ∈ [versionKey, depthKey, cardinalityKey, extensionsKey]) :
    key.toList ≠ [] ∧ ∀ c ∈ key.toList, isKeyChar c = true := by
  simp only [List.mem_cons, List.not_mem_nil, or_false] at h
  rcases h with rfl | rfl | rfl | rfl
  all_goals simp [versionKey, depthKey, cardinalityKey, extensionsKey, isKeyChar]

/-- What is stated of a configuration, in the order of its lines. -/
def settings (c : Config) (h : c.maxReferenceDepth < depthBound) : List Setting :=
  [⟨versionKey, stringChars version.toList, .string version, plain_key (by simp), readAs_string version⟩,
    ⟨depthKey, Nat.toDigits 10 c.maxReferenceDepth, .integer c.maxReferenceDepth, plain_key (by simp),
      readAs_integer h⟩,
    ⟨cardinalityKey, stringChars c.defaultCardinality.token.toList, .string c.defaultCardinality.token,
      plain_key (by simp), readAs_string _⟩,
    ⟨extensionsKey, (listText c.formExtensions).toList, .array (c.formExtensions.map .string),
      plain_key (by simp), readAs_listText _⟩]

/-- A configuration is written as the lines of its settings. -/
theorem text_eq (h : c.maxReferenceDepth < depthBound) :
    c.text = String.ofList ((c.settings h).flatMap Setting.line) := by
  rw [← String.toList_inj]
  simp [text, Versions.ofConfig, Versions.text, line, settings, Setting.line, stringText,
    Nat.repr_eq_ofList_toDigits]

theorem textsOf_map (ss : List String) : textsOf (.array (ss.map .string)) = .ok ss := by
  show (ss.map Value.string).mapM textOf = .ok ss
  induction ss with
  | nil => rfl
  | cons s ss ih =>
    rw [List.map_cons, List.mapM_cons, ih]
    rfl

theorem cardinalityOf_token (k : Cardinality) : cardinalityOf (.string k.token) = .ok k := by
  show (Cardinality.ofToken k.token).mapError ConfigFault.cardinality = .ok k
  rw [Cardinality.ofToken, Cardinality.parse?_token]
  rfl

theorem depthOf_integer {n : Nat} (h : n < depthBound) : depthOf (.integer n) = .ok n := by
  simp [depthOf, h]

/-- Each setting is found under its key, so none is taken from the standard. -/
theorem ofTable_settings (h : c.maxReferenceDepth < depthBound) :
    Versions.ofTable ⟨.header, (c.settings h).map Setting.entry⟩ = .ok (.ofConfig c) := by
  -- the keys are fixed texts, so that looking them up is a computation whatever the values are
  have hversion : Table.get? ⟨.header, (c.settings h).map Setting.entry⟩ versionKey = some (.string version) := by
    rfl
  have hdepth : Table.get? ⟨.header, (c.settings h).map Setting.entry⟩ depthKey =
      some (.integer c.maxReferenceDepth) := by
    rfl
  have hcardinality : Table.get? ⟨.header, (c.settings h).map Setting.entry⟩ cardinalityKey =
      some (.string c.defaultCardinality.token) := by
    rfl
  have hextensions : Table.get? ⟨.header, (c.settings h).map Setting.entry⟩ extensionsKey =
      some (.array (c.formExtensions.map .string)) := by
    rfl
  simp only [Versions.ofTable, setting, hversion, hdepth, hcardinality, hextensions, if_true,
    cardinalityOf_token, textsOf_map, depthOf_integer h]
  rfl

/-- **A saved configuration** is loaded as it was. The version that is written is the one that is
read, and every field comes back through the same key. -/
theorem ofFile_text (c : Config) (h : c.maxReferenceDepth < depthBound) : ofFile (.ok c.text) = .ok c := by
  have hkeys : ((c.settings h).map Setting.key).Nodup := by
    show [versionKey, depthKey, cardinalityKey, extensionsKey].Nodup
    decide
  have hparse : Toml.parse c.text = .ok ⟨.header, (c.settings h).map Setting.entry⟩ := by
    rw [text_eq h, parse_settings (c.settings h) hkeys]
  have hload : parse c.text = .ok c := by
    rw [parse, hparse]
    show ofTable _ = .ok c
    rw [ofTable, ofTable_settings h, Except.map, Versions.config_ofConfig]
  simp only [ofFile, Except.mapError, bind, Except.bind, hload]

namespace Sample

/-- The greatest depth, and extensions that cannot stand as they are. -/
def strange : Config := ⟨18446744073709551615, .optionalMultiple, ["it\x27s", "\x22\\\n\x01ü"]⟩

end Sample

theorem ofFile_text_strange :
    Sample.strange.maxReferenceDepth < depthBound ∧ ofFile (.ok Sample.strange.text) = .ok Sample.strange := by
  have hdepth : Sample.strange.maxReferenceDepth < depthBound := by decide
  exact ⟨hdepth, ofFile_text Sample.strange hdepth⟩

example : Sample.strange.text =
    "_version = \x221\x22\nmax_reference_depth = 18446744073709551615\n" ++
    "default_cardinality = \x22optional+\x22\nform_extensions = [\n    \x22it\x27s\x22,\n" ++
    "    \x22\x22\x22\n\x22\\\\\n\\u0001ü\x22\x22\x22,\n]\n" := by
  decide +kernel

end Configurations

end FormSchema.Config
