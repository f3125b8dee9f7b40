import MonikerIndex.Toml.Reader
import Mathlib.Data.List.Basic

/-!
# Reading back a list of settings

Settings that are written one on a line, each a bare key with a text, are read as the same keys
with the same texts. The texts here are those that need no escapes and no blocks (`Simple`): they
stand between quotation marks, or between apostrophes if there is a quotation mark or a backslash in
them.

A reader returns what it has read together with the rest, so each lemma is about a written form
with something behind it.
-/

namespace MonikerIndex.Toml

/-! ### How a text is written -/

/-- Whether a text has a written form on one line without escapes: there are no control characters
    in it, and not an apostrophe together with a quotation mark or a backslash. -/
structure Simple (chars : List Char) : Prop where
  noControls : ∀ c ∈ chars, 32 ≤ c.toNat ∧ c.toNat ≠ 127
  oneKind : '\'' ∈ chars → '"' ∉ chars ∧ '\\' ∉ chars

variable {chars : List Char}

theorem simple_iff : Simple chars ↔
    (chars.all (fun c => 32 ≤ c.toNat && c.toNat != 127) &&
      (!chars.contains '\'' || !chars.contains '"' && !chars.contains '\\')) = true := by
  simp only [Bool.and_eq_true, List.all_eq_true, decide_eq_true_eq, bne_iff_ne, Bool.or_eq_true,
    Bool.not_eq_true', List.contains_eq_mem, decide_eq_false_iff_not, ← imp_iff_not_or]
  exact ⟨fun h => ⟨h.noControls, h.oneKind⟩, fun h => ⟨h.1, h.2⟩⟩

instance : Decidable (Simple chars) :=
  decidable_of_iff _ simple_iff.symm

theorem foldl_run_eq_zero_iff (mark : Char) (chars : List Char) (run best : Nat) :
    (chars.foldl (fun (state : Nat × Nat) c => (if c == mark then state.1 + 1 else 0,
      max state.2 (if c == mark then state.1 + 1 else 0))) (run, best)).2 = 0 ↔
        best = 0 ∧ mark ∉ chars := by
  induction chars generalizing run best with
  | nil => simp
  | cons c chars ih =>
    rw [List.foldl_cons, ih]
    by_cases hc : c = mark
    · simp [hc]
    · simp [hc, Ne.symm hc]

theorem longestRun_eq_zero_iff (mark : Char) (chars : List Char) :
    longestRun mark chars = 0 ↔ mark ∉ chars := by
  have hrun : longestRun mark chars = 0 ↔ 0 = 0 ∧ mark ∉ chars :=
    foldl_run_eq_zero_iff mark chars 0 0
  rw [hrun, eq_self, true_and]

theorem Simple.isVisible (h : Simple chars) {c : Char} (hc : c ∈ chars) : isVisible c = true := by
  obtain ⟨hlow, hdelete⟩ := h.noControls c hc
  simp [Toml.isVisible, hlow, hdelete]

theorem Simple.newline_notMem (h : Simple chars) : '\n' ∉ chars := by
  intro hmem
  have hlow := (h.noControls _ hmem).1
  revert hlow
  decide

theorem Simple.apostrophe_notMem (h : Simple chars) (hmarks : '"' ∈ chars ∨ '\\' ∈ chars) :
    '\'' ∉ chars := by
  intro hmem
  obtain ⟨hquote, hslash⟩ := h.oneKind hmem
  rcases hmarks with hmem | hmem
  · exact hquote hmem
  · exact hslash hmem

theorem quotingOf_of_simple (h : Simple chars) :
    quotingOf chars = if '"' ∈ chars ∨ '\\' ∈ chars then .literal else .basic := by
  have hlines : chars.contains '\n' = false := by simpa using h.newline_notMem
  have hclean : (chars.all fun c => Toml.isVisible c || c == '\n') = true := by
    rw [List.all_eq_true]
    intro c hc
    rw [h.isVisible hc]
    rfl
  simp only [quotingOf, hlines, hclean, Bool.true_and, Bool.not_false, Bool.and_true, beq_iff_eq,
    longestRun_eq_zero_iff, Bool.and_eq_true, Bool.not_eq_true', ← Bool.not_eq_true,
    List.contains_iff_mem]
  by_cases hquote : '"' ∈ chars ∨ '\\' ∈ chars
  · rw [if_pos hquote, if_neg (by tauto), if_pos (h.apostrophe_notMem hquote)]
  · rw [if_neg hquote, if_pos (by tauto)]

theorem escape_of_visible {c : Char} (hcontrol : 32 ≤ c.toNat ∧ c.toNat ≠ 127) (hquote : c ≠ '"')
    (hslash : c ≠ '\\') : escape c = [c] := by
  have hne {other : Char} (hother : other.toNat < 32) : c ≠ other := by
    rintro rfl
    omega
  have hvisible : isVisible c = true := by simp [isVisible, hcontrol]
  rw [escape, if_neg hquote, if_neg hslash, if_neg (hne (by decide)), if_neg (hne (by decide)),
    if_neg (hne (by decide)), if_neg (hne (by decide)), if_neg (hne (by decide)), if_pos hvisible]

/-- The written form of a simple text. -/
theorem quote_of_simple {text : String} (h : Simple text.toList) :
    quote text =
      if '"' ∈ text.toList ∨ '\\' ∈ text.toList then '\'' :: (text.toList ++ ['\''])
      else '"' :: (text.toList ++ ['"']) := by
  rw [quote, quotingOf_of_simple h]
  by_cases hmarks : '"' ∈ text.toList ∨ '\\' ∈ text.toList
  · rw [if_pos hmarks, if_pos hmarks]
  · rw [if_neg hmarks, if_neg hmarks]
    rw [not_or] at hmarks
    have hescape : text.toList.flatMap escape = text.toList.flatMap fun c => [c] := by
      apply List.flatMap_congr
      intro c hc
      apply escape_of_visible (h.noControls c hc)
      · rintro rfl
        exact hmarks.1 hc
      · rintro rfl
        exact hmarks.2 hc
    rw [hescape, List.flatMap_singleton']

/-! ### How a text is read -/

theorem basicText_cons {c : Char} (hvisible : isVisible c = true) (hquote : c ≠ '"')
    (hslash : c ≠ '\\') (rest : List Char) :
    basicText (c :: rest) = (basicText rest).map (prepend c) := by
  rw [basicText]
  · cases basicText rest with
    | none => simp [hslash, hvisible]
    | some text => simp [hslash, hvisible]
  · exact hquote
  -- The other forms all start with a backslash.
  all_goals
    intros
    contradiction

theorem basicText_append (hvisible : ∀ c ∈ chars, isVisible c = true) (hquote : '"' ∉ chars)
    (hslash : '\\' ∉ chars) (rest : List Char) :
    basicText (chars ++ '"' :: rest) = some (chars, rest) := by
  induction chars with
  | nil => rw [List.nil_append, basicText]
  | cons c chars ih =>
    rw [List.forall_mem_cons] at hvisible
    rw [List.mem_cons, not_or] at hquote hslash
    rw [List.cons_append, basicText_cons hvisible.1 (Ne.symm hquote.1) (Ne.symm hslash.1),
      ih hvisible.2 hquote.2 hslash.2]
    rfl

theorem literalText_append (hvisible : ∀ c ∈ chars, isVisible c = true) (hmark : '\'' ∉ chars)
    (rest : List Char) :
    literalText (chars ++ '\'' :: rest) = some (chars, rest) := by
  induction chars with
  | nil => rfl
  | cons c chars ih =>
    rw [List.forall_mem_cons] at hvisible
    rw [List.mem_cons, not_or] at hmark
    rw [List.cons_append, literalText, if_neg (Ne.symm hmark.1), if_pos hvisible.1,
      ih hvisible.2 hmark.2]
    rfl

/-- Two marks for an empty text would start a block if another mark came next, so the line end
    behind the text matters. -/
theorem anyText_basic (hquote : '"' ∉ chars) (rest : List Char) :
    anyText ('"' :: (chars ++ '"' :: '\n' :: rest)) =
      (basicText (chars ++ '"' :: '\n' :: rest)).map fun found =>
        (String.ofList found.1, found.2) := by
  cases chars with
  | nil => rfl
  | cons c chars =>
    rw [List.mem_cons, not_or] at hquote
    rw [anyText]
    intro inner heq
    exact hquote.1 (List.cons.inj heq).1.symm

theorem anyText_literal (hmark : '\'' ∉ chars) (rest : List Char) :
    anyText ('\'' :: (chars ++ '\'' :: '\n' :: rest)) =
      (literalText (chars ++ '\'' :: '\n' :: rest)).map fun found =>
        (String.ofList found.1, found.2) := by
  cases chars with
  | nil => rfl
  | cons c chars =>
    rw [List.mem_cons, not_or] at hmark
    rw [anyText]
    intro inner heq
    exact hmark.1 (List.cons.inj heq).1.symm

theorem anyText_quote {text : String} (h : Simple text.toList) (rest : List Char) :
    anyText (quote text ++ '\n' :: rest) = some (text, '\n' :: rest) := by
  rw [quote_of_simple h]
  have hvisible (c : Char) (hc : c ∈ text.toList) : isVisible c = true := h.isVisible hc
  by_cases hmarks : '"' ∈ text.toList ∨ '\\' ∈ text.toList
  · have hmark := h.apostrophe_notMem hmarks
    rw [if_pos hmarks, List.cons_append, List.append_assoc, List.singleton_append,
      anyText_literal hmark, literalText_append hvisible hmark]
    simp
  · rw [if_neg hmarks, List.cons_append, List.append_assoc, List.singleton_append]
    rw [not_or] at hmarks
    rw [anyText_basic hmarks.1, basicText_append hvisible hmarks.1 hmarks.2]
    simp

theorem value_quote {text : String} (h : Simple text.toList) (steps depth : Nat)
    (rest : List Char) :
    value (steps + 1) depth (skipBlanks (' ' :: (quote text ++ '\n' :: rest))) =
      some (.text text, '\n' :: rest) := by
  have hread := anyText_quote h rest
  rw [quote_of_simple h] at hread ⊢
  split_ifs at hread ⊢ with hmarks
  · have hskip (inner : List Char) : skipBlanks (' ' :: '\'' :: inner) = '\'' :: inner := rfl
    rw [List.cons_append] at hread ⊢
    rw [hskip, value, hread]
    rfl
  · have hskip (inner : List Char) : skipBlanks (' ' :: '"' :: inner) = '"' :: inner := rfl
    rw [List.cons_append] at hread ⊢
    rw [hskip, value, hread]
    rfl

/-! ### Keys -/

/-- Whether a key needs no quotation marks. -/
structure Bare (chars : List Char) : Prop where
  ne_nil : chars ≠ []
  isKeyChar : ∀ c ∈ chars, isKeyChar c = true

theorem bare_iff : Bare chars ↔ (!chars.isEmpty && chars.all Toml.isKeyChar) = true := by
  simp only [Bool.and_eq_true, Bool.not_eq_true', List.isEmpty_eq_false_iff, List.all_eq_true]
  exact ⟨fun h => ⟨h.ne_nil, h.isKeyChar⟩, fun h => ⟨h.1, h.2⟩⟩

instance : Decidable (Bare chars) :=
  decidable_of_iff _ bare_iff.symm

theorem ne_of_isKeyChar {c other : Char} (hc : isKeyChar c = true)
    (hother : isKeyChar other = false) : c ≠ other := by
  rintro rfl
  rw [hc] at hother
  cases hother

theorem Bare.exists_cons (h : Bare chars) :
    ∃ c others, chars = c :: others ∧ Toml.isKeyChar c = true := by
  obtain ⟨c, others, rfl⟩ := List.exists_cons_of_ne_nil h.ne_nil
  exact ⟨c, others, rfl, h.isKeyChar c List.mem_cons_self⟩

theorem skipBlanks_cons {c : Char} (hc : isKeyChar c = true) (rest : List Char) :
    skipBlanks (c :: rest) = c :: rest := by
  have hspace : c ≠ ' ' := ne_of_isKeyChar hc (by decide)
  have htab : c ≠ '\t' := ne_of_isKeyChar hc (by decide)
  rw [skipBlanks, List.dropWhile_cons_of_neg]
  simp [hspace, htab]

theorem keyPart_append (h : Bare chars) (rest : List Char) :
    keyPart (chars ++ ' ' :: rest) = some (String.ofList chars, ' ' :: rest) := by
  have htake : (chars ++ ' ' :: rest).takeWhile Toml.isKeyChar = chars := by
    rw [List.takeWhile_append_of_pos h.isKeyChar, List.takeWhile_cons_of_neg (by decide),
      List.append_nil]
  have hdrop : (chars ++ ' ' :: rest).dropWhile Toml.isKeyChar = ' ' :: rest := by
    rw [List.dropWhile_append_of_pos h.isKeyChar, List.dropWhile_cons_of_neg (by decide)]
  obtain ⟨c, others, rfl, hc⟩ := h.exists_cons
  rw [keyPart]
  · rw [htake, hdrop]
    rfl
  · intro inner heq
    exact ne_of_isKeyChar hc (by decide) (List.cons.inj heq).1
  · intro inner heq
    exact ne_of_isKeyChar hc (by decide) (List.cons.inj heq).1

/-- A bare key is read up to the sign after it. -/
theorem key_append (h : Bare chars) (rest : List Char) :
    key (chars ++ ' ' :: '=' :: rest) = some ([String.ofList chars], '=' :: rest) := by
  have hread := keyPart_append h ('=' :: rest)
  obtain ⟨c, others, rfl, hc⟩ := h.exists_cons
  have hparts (steps : Nat) : keyParts (steps + 1) (c :: others ++ ' ' :: '=' :: rest) =
      some ([String.ofList (c :: others)], '=' :: rest) := by
    rw [keyParts, List.cons_append, skipBlanks_cons hc, ← List.cons_append, hread]
    rfl
  rw [key, List.cons_append, List.length_cons, ← List.cons_append, hparts]
  rfl

theorem alter_of_notMem {key : String} {members : Members} (h : key ∉ members.map Prod.fst)
    (change : Option Toml → Option Toml) :
    alter key change members = (change none).map fun value => members ++ [(key, value)] := by
  induction members with
  | nil => rfl
  | cons member members ih =>
    rw [List.map_cons, List.mem_cons, not_or] at h
    rw [alter, if_neg (Ne.symm h.1), ih h.2, Option.map_map]
    rfl

/-! ### Lines -/

/-- A setting as it is written: a key and its text, on a line. -/
def written (setting : String × String) : List Char :=
  setting.1.toList ++ ([' ', '=', ' '] ++ (quote setting.2 ++ ['\n']))

theorem Bare.exists_cons_of_written {key : String} (h : Bare key.toList) (text : String) :
    ∃ c others, written (key, text) = c :: others ∧ Toml.isKeyChar c = true := by
  obtain ⟨c, others, hcons, hc⟩ := h.exists_cons
  exact ⟨c, others ++ _, by rw [written, hcons, List.cons_append], hc⟩

theorem skipLines_cons {c : Char} (hc : isKeyChar c = true) (steps : Nat) (rest : List Char) :
    skipLines steps (c :: rest) = c :: rest := by
  have hcomment : skipComment (c :: rest) = c :: rest := by
    rw [skipComment]
    intro inner heq
    exact ne_of_isKeyChar hc (by decide) (List.cons.inj heq).1
  have hnewline : passNewline (c :: rest) = none := by
    rw [passNewline]
    · intro inner heq
      exact ne_of_isKeyChar hc (by decide) (List.cons.inj heq).1
    · intro inner heq
      exact ne_of_isKeyChar hc (by decide) (List.cons.inj heq).1
  cases steps with
  | zero => rfl
  | succ steps => rw [skipLines, skipBlanks_cons hc, hcomment, hnewline]

theorem lines_cons {c : Char} (hc : isKeyChar c = true) (steps : Nat) (draft : Draft)
    (rest : List Char) :
    lines (steps + 1) draft (c :: rest) =
      (line draft (c :: rest)).bind fun found => lines steps found.1 found.2 := by
  rw [lines, skipLines_cons hc]
  rfl

theorem line_written {tree : Members} {setting : String × String}
    (hkey : Bare setting.1.toList) (htext : Simple setting.2.toList)
    (hnew : setting.1 ∉ tree.map Prod.fst) (rest : List Char) :
    line ⟨tree, []⟩ (written setting ++ rest) =
      some (⟨tree ++ [(setting.1, .text setting.2)], []⟩, rest) := by
  have hform : written setting ++ rest =
      setting.1.toList ++ ' ' :: '=' :: ' ' :: (quote setting.2 ++ '\n' :: rest) := by
    simp [written]
  have hread := key_append hkey (' ' :: (quote setting.2 ++ '\n' :: rest))
  have hassign : assignUnder [] [setting.1] (.text setting.2) tree =
      some (tree ++ [(setting.1, .text setting.2)]) := by
    change assign [setting.1] _ _ = _
    rw [assign, alter_of_notMem hnew]
    rfl
  obtain ⟨c, others, hcons, hc⟩ := hkey.exists_cons
  rw [hform, line]
  · rw [hread, String.ofList_toList]
    simp only [Option.bind_eq_bind, Option.bind_some, value_quote htext, hassign]
    rfl
  · intro inner heq
    rw [hcons] at heq
    exact ne_of_isKeyChar hc (by decide) (List.cons.inj heq).1
  · intro inner heq
    rw [hcons] at heq
    exact ne_of_isKeyChar hc (by decide) (List.cons.inj heq).1

/-- Settings that are written one after the other, with keys that are new and differ, end up in the
    tree in their order. -/
theorem lines_written {settings : List (String × String)}
    (hkeys : ∀ setting ∈ settings, Bare setting.1.toList)
    (htexts : ∀ setting ∈ settings, Simple setting.2.toList) {tree : Members}
    (hnodup : (tree.map Prod.fst ++ settings.map Prod.fst).Nodup) {steps : Nat}
    (hsteps : settings.length < steps) :
    lines steps ⟨tree, []⟩ (settings.flatMap written) =
      some (tree ++ settings.map fun setting => (setting.1, .text setting.2)) := by
  induction settings generalizing tree steps with
  | nil =>
    obtain ⟨steps, rfl⟩ := Nat.exists_eq_succ_of_ne_zero (Nat.ne_of_gt hsteps)
    rw [List.flatMap_nil, List.map_nil, List.append_nil]
    rfl
  | cons setting settings ih =>
    obtain ⟨steps, rfl⟩ := Nat.exists_eq_succ_of_ne_zero (Nat.ne_zero_of_lt hsteps)
    rw [List.forall_mem_cons] at hkeys htexts
    rw [List.map_cons] at hnodup
    have hnew : setting.1 ∉ tree.map Prod.fst := by
      intro hmem
      exact (List.nodup_append.mp hnodup).2.2 _ hmem _ List.mem_cons_self rfl
    have hread := line_written hkeys.1 htexts.1 hnew (settings.flatMap written)
    have hrest := @ih hkeys.2 htexts.2 (tree ++ [(setting.1, .text setting.2)])
      (by simpa using hnodup) steps (Nat.lt_of_succ_lt_succ hsteps)
    obtain ⟨c, others, hcons, hc⟩ := hkeys.1.exists_cons_of_written setting.2
    rw [List.flatMap_cons, hcons, List.cons_append, lines_cons hc, ← List.cons_append, ← hcons,
      hread, Option.bind_some, hrest, List.append_assoc]
    rfl

theorem length_le_length_flatMap_written (settings : List (String × String)) :
    settings.length ≤ (settings.flatMap written).length := by
  induction settings with
  | nil => exact Nat.zero_le _
  | cons setting settings ih =>
    have hpos : 0 < (written setting).length := List.length_pos_iff.mpr (by simp [written])
    rw [List.flatMap_cons, List.length_append, List.length_cons]
    omega

theorem skipMark_cons {c : Char} (hc : isKeyChar c = true) (rest : List Char) :
    skipMark (c :: rest) = c :: rest := by
  have hmark : c.toNat ≠ 0xFEFF := by
    intro heq
    have hmark : c = '\uFEFF' := Char.toNat_inj.mp heq
    exact ne_of_isKeyChar hc (by decide) hmark
  rw [skipMark, if_neg hmark]

theorem parse_written {settings : List (String × String)}
    (hkeys : ∀ setting ∈ settings, Bare setting.1.toList)
    (htexts : ∀ setting ∈ settings, Simple setting.2.toList)
    (hnodup : (settings.map Prod.fst).Nodup) :
    parse (String.ofList (settings.flatMap written)) =
      some (settings.map fun setting => (setting.1, .text setting.2)) := by
  have hmark : skipMark (settings.flatMap written) = settings.flatMap written := by
    cases settings with
    | nil => rfl
    | cons setting settings =>
      rw [List.forall_mem_cons] at hkeys
      obtain ⟨c, others, hcons, hc⟩ := hkeys.1.exists_cons_of_written setting.2
      rw [List.flatMap_cons, hcons, List.cons_append, skipMark_cons hc]
  rw [parse, String.toList_ofList, hmark]
  have hsteps := Nat.lt_succ_of_le (length_le_length_flatMap_written settings)
  exact @lines_written settings hkeys htexts [] hnodup _ hsteps

end MonikerIndex.Toml
