import ByteLexer.Diagnostic.Basic
import ByteLexer.Proofs.Byte.Escape
import ByteLexer.Proofs.Text.Separators

/-! # Reading messages

    A lexical error shows bytes, and these may be anything: blanks, ends of lines, or the quotes
    that stand around them. They are spelled in visible characters, though, so a message can be read
    word by word, and so can the note about a lexeme, up to the changes of colour in it.

    - **Spellings** as texts.
    - **Messages** of lexical errors, as words.
    - **Notes.** What they are made of, and that each is printed as one line.
    - **Reading.** Both tell the lexeme, whatever it is.
-/

namespace ByteLexer

open Byte

variable {bytes bytes' lexeme : List UInt8} {found : Option UInt8} {c : Char}

/-! ## Spellings -/

namespace Byte

theorem toList_spellAll (bytes : List UInt8) : (spellAll bytes).toList = bytes.flatMap escape :=
  String.toList_ofList

/-- What is spelled is visible. -/
theorem graphic_of_mem_spellAll (h : c ∈ (spellAll bytes).toList) : isGraphic c = true := by
  rw [toList_spellAll, List.mem_flatMap] at h
  obtain ⟨b, _, hc⟩ := h
  exact graphic_of_mem_escape hc

/-- Different bytes are not spelled alike. -/
theorem spellAll_inj : spellAll bytes = spellAll bytes' ↔ bytes = bytes' := by
  rw [← String.toList_inj, toList_spellAll, toList_spellAll, flatMap_escape_inj]

/-- One byte is spelled like a list of one. -/
theorem spell_eq (b : UInt8) : spell b = spellAll [b] := by
  rw [spell, spellAll, List.flatMap_singleton]

end Byte

/-! ## Messages -/

/-- Bytes between quotes. -/
def quoted (bytes : List UInt8) : String :=
  "`" ++ spellAll bytes ++ "`"

theorem graphic_of_mem_quoted (h : c ∈ (quoted bytes).toList) : isGraphic c = true := by
  have hquote : ∀ c ∈ "`".toList, isGraphic c = true := List.all_eq_true.mp (by decide)
  rw [quoted, String.toList_append, String.toList_append, List.mem_append, List.mem_append] at h
  rcases h with (h | h) | h
  · exact hquote c h
  · exact graphic_of_mem_spellAll h
  · exact hquote c h

/-- What is read between quotes. -/
def readQuoted (w : List Char) : Option (List UInt8) :=
  if w.head? = some '\x60' ∧ w.getLast? = some '\x60' then unescape w.tail.dropLast else none

theorem readQuoted_quoted (bytes : List UInt8) : readQuoted (quoted bytes).toList = some bytes := by
  have hlist : (quoted bytes).toList = '\x60' :: (bytes.flatMap escape ++ ['\x60']) := by
    rw [quoted, String.toList_append, String.toList_append, toList_spellAll]
    rfl
  rw [readQuoted, hlist, List.head?_cons, List.getLast?_cons, List.getLast?_concat, List.tail_cons,
    List.dropLast_concat, unescape_flatMap_escape]
  rfl

namespace SessionError

/-- The words for what was found after a lexeme. -/
def foundWords : Option UInt8 → List String
  | some b => ["unexpected", "byte", quoted [b]]
  | none => ["unexpected", "end", "of", "input"]

/-- The words for a lexeme. -/
def lexemeWords (lexeme : List UInt8) : List String :=
  if lexeme.isEmpty then [] else ["after", quoted lexeme]

/-- The words of the message of a lexical error. -/
def words (lexeme : List UInt8) (found : Option UInt8) : List String :=
  foundWords found ++ lexemeWords lexeme

theorem message_some (lexeme : List UInt8) (b : UInt8) : (lexical lexeme (some b)).message =
    "unexpected byte `" ++ spell b ++ "`" ++
      if lexeme.isEmpty then "" else " after `" ++ spellAll lexeme ++ "`" :=
  rfl

theorem message_none (lexeme : List UInt8) : (lexical lexeme none).message =
    "unexpected end of input" ++
      if lexeme.isEmpty then "" else " after `" ++ spellAll lexeme ++ "`" :=
  rfl

theorem message_eq_intercalate (lexeme : List UInt8) (found : Option UInt8) :
    (lexical lexeme found).message = " ".intercalate (words lexeme found) := by
  rw [← String.toList_inj, words]
  unfold lexemeWords quoted
  cases found with
  | none =>
    rw [message_none]
    cases lexeme.isEmpty with
    | true => simp [foundWords]
    | false => simp [foundWords]
  | some b =>
    rw [message_some, spell_eq]
    cases lexeme.isEmpty with
    | true => simp [foundWords, quoted]
    | false => simp [foundWords, quoted]

/-- Each word is one of a few, or bytes between quotes. -/
theorem eq_quoted_of_mem_words {w : String} (h : w ∈ words lexeme found) :
    w ∈ ["unexpected", "byte", "end", "of", "input", "after"] ∨ ∃ bytes, w = quoted bytes := by
  rw [words, List.mem_append] at h
  unfold foundWords lexemeWords at h
  rcases h with h | h
  · cases found with
    | none => grind
    | some b => grind
  · split at h
    · cases h
    · grind

/-- Words are visible. -/
theorem graphic_of_mem_words {w : String} (hw : w ∈ words lexeme found) (hc : c ∈ w.toList) :
    isGraphic c = true := by
  rcases eq_quoted_of_mem_words hw with hw | ⟨bytes, rfl⟩
  · have hplain : ∀ w ∈ ["unexpected", "byte", "end", "of", "input", "after"],
        w.toList.all isGraphic = true := by decide
    exact List.all_eq_true.mp (hplain w hw) c hc
  · exact graphic_of_mem_quoted hc

/-- So they are told apart by the blanks. -/
theorem splitOn_message (lexeme : List UInt8) (found : Option UInt8) :
    (lexical lexeme found).message.toList.splitOn ' ' =
      (words lexeme found).map String.toList := by
  rw [message_eq_intercalate, String.toList_intercalate]
  refine List.splitOn_intercalate ' ' (fun l hl hblank => ?_) ?_
  · obtain ⟨w, hw, rfl⟩ := List.mem_map.mp hl
    exact absurd (graphic_of_mem_words hw hblank) (by decide)
  · cases found <;> exact List.cons_ne_nil _ _

/-- What a message is read as: if it has an odd number of words, a byte has been found, and if it
    has more than four, there is a lexeme. -/
def readMessage (s : String) : Option SessionError :=
  match s.toList.splitOn ' ' with
  | [_, _, found] => (readQuoted found).map fun bytes => lexical [] bytes.head?
  | [_, _, _, _] => some (lexical [] none)
  | [_, _, found, _, lexeme] => do
    let bytes ← readQuoted found
    (readQuoted lexeme).map fun lexeme => lexical lexeme bytes.head?
  | [_, _, _, _, _, lexeme] => (readQuoted lexeme).map fun lexeme => lexical lexeme none
  | _ => none

theorem readMessage_message (lexeme : List UInt8) (found : Option UInt8) :
    readMessage (lexical lexeme found).message = some (lexical lexeme found) := by
  rw [readMessage, splitOn_message]
  rcases lexeme with _ | ⟨c, lexeme⟩
  · cases found with
    | none => rfl
    | some b =>
      show (readQuoted (quoted [b]).toList).map (fun bytes => lexical [] bytes.head?) = _
      rw [readQuoted_quoted]
      rfl
  · cases found with
    | none =>
      show (readQuoted (quoted (c :: lexeme)).toList).map (fun lexeme => lexical lexeme none) = _
      rw [readQuoted_quoted]
      rfl
    | some b =>
      show (readQuoted (quoted [b]).toList).bind (fun bytes =>
        (readQuoted (quoted (c :: lexeme)).toList).map fun lexeme => lexical lexeme bytes.head?) = _
      rw [readQuoted_quoted, readQuoted_quoted]
      rfl

/-- There is nothing but visible characters and blanks in a message. -/
theorem printable_of_mem_message (h : c ∈ (lexical lexeme found).message.toList) :
    0x20 ≤ c.toNat ∧ c.toNat ≤ 0x7e := by
  rw [message_eq_intercalate, String.toList_intercalate] at h
  rcases mem_of_mem_intercalate h with rfl | ⟨l, hl, hc⟩
  · decide
  · obtain ⟨w, hw, rfl⟩ := List.mem_map.mp hl
    have hgraphic := isGraphic_iff.mp (graphic_of_mem_words hw hc)
    exact ⟨Nat.le_of_succ_le hgraphic.1, hgraphic.2⟩

/-! ## Notes -/

/-- The note about a lexeme. -/
def lexemeNote (lexeme : List UInt8) : Note :=
  ⟨.note, "`" ++ paint .plain (spellAll lexeme)
    ++ "` is the beginning of some token, but no token at all"⟩

/-- The note about the end of the input. -/
def endNote : Note :=
  ⟨.note, "the input ends in the middle of a token"⟩

theorem notes_lexical (lexeme : List UInt8) (found : Option UInt8) :
    (lexical lexeme found).notes = (if lexeme.isEmpty then [] else [lexemeNote lexeme]) ++
      if found.isNone then [endNote] else [] :=
  rfl

/-- The parts of the note about a lexeme, between the escape characters of its colours. -/
def noteParts (lexeme : List UInt8) : List String :=
  ["`", "[1m" ++ spellAll lexeme,
    "[0m` is the beginning of some token, but no token at all"]

theorem content_lexemeNote (lexeme : List UInt8) :
    (lexemeNote lexeme).content = "\x1b".intercalate (noteParts lexeme) := by
  rw [← String.toList_inj, lexemeNote, noteParts]
  simp [paint, escapeSequence, Tint.code]

theorem printable_of_mem_noteParts {w : String} (hw : w ∈ noteParts lexeme) (hc : c ∈ w.toList) :
    0x20 ≤ c.toNat ∧ c.toNat ≤ 0x7e := by
  have hplain : ∀ w ∈ ["`", "[1m", "[0m` is the beginning of some token, but no token at all"],
      w.toList.all (fun c => 0x20 ≤ c.toNat ∧ c.toNat ≤ 0x7e) = true := by decide
  simp only [List.forall_mem_cons, List.all_eq_true, decide_eq_true_eq] at hplain
  obtain ⟨hopening, hcolour, hclosing, _⟩ := hplain
  simp only [noteParts, List.mem_cons, List.not_mem_nil, or_false] at hw
  rcases hw with rfl | rfl | rfl
  · exact hopening c hc
  · rw [String.toList_append, List.mem_append] at hc
    rcases hc with hc | hc
    · exact hcolour c hc
    · have hgraphic := isGraphic_iff.mp (graphic_of_mem_spellAll hc)
      exact ⟨Nat.le_of_succ_le hgraphic.1, hgraphic.2⟩
  · exact hclosing c hc

theorem eq_of_mem_notes {note : Note} (h : note ∈ (lexical lexeme found).notes) :
    note = lexemeNote lexeme ∨ note = endNote := by
  rw [notes_lexical, List.mem_append] at h
  refine h.imp (fun h => ?_) fun h => ?_
  · split at h
    · cases h
    · exact List.mem_singleton.mp h
  · split at h
    · exact List.mem_singleton.mp h
    · cases h

/-- There is nothing but visible characters, blanks and escape characters in a note. -/
theorem printable_of_mem_notes {note : Note} (hnote : note ∈ (lexical lexeme found).notes)
    (hc : c ∈ note.content.toList) : c = '\x1b' ∨ 0x20 ≤ c.toNat ∧ c.toNat ≤ 0x7e := by
  rcases eq_of_mem_notes hnote with rfl | rfl
  · rw [content_lexemeNote, String.toList_intercalate] at hc
    refine (mem_of_mem_intercalate hc).imp_right fun h => ?_
    obtain ⟨l, hl, hcl⟩ := h
    obtain ⟨w, hw, rfl⟩ := List.mem_map.mp hl
    exact printable_of_mem_noteParts hw hcl
  · have hplain : endNote.content.toList.all (fun c => 0x20 ≤ c.toNat ∧ c.toNat ≤ 0x7e) = true := by
      decide
    exact .inr (of_decide_eq_true (List.all_eq_true.mp hplain c hc))

/-- What a note tells of a lexeme, if it is about one. -/
def readNote (note : Note) : Option (List UInt8) :=
  match note.content.toList.splitOn '\x1b' with
  | [_, spelled, _] => unescape (spelled.drop 3)
  | _ => none

theorem readNote_lexemeNote (lexeme : List UInt8) :
    readNote (lexemeNote lexeme) = some lexeme := by
  have hsplit : (lexemeNote lexeme).content.toList.splitOn '\x1b' =
      (noteParts lexeme).map String.toList := by
    rw [content_lexemeNote, String.toList_intercalate]
    refine List.splitOn_intercalate '\x1b' (fun l hl hescape => ?_) (List.cons_ne_nil _ _)
    obtain ⟨w, hw, rfl⟩ := List.mem_map.mp hl
    exact absurd (printable_of_mem_noteParts hw hescape).1 (by decide)
  rw [readNote, hsplit]
  show unescape (("[1m" ++ spellAll lexeme).toList.drop 3) = some lexeme
  rw [String.toList_append, toList_spellAll]
  exact unescape_flatMap_escape lexeme

theorem readNote_endNote : readNote endNote = none := by
  decide

/-- The notes of a lexical error tell the lexeme, unless it is empty. -/
theorem filterMap_readNote_notes (lexeme : List UInt8) (found : Option UInt8) :
    (lexical lexeme found).notes.filterMap readNote = if lexeme = [] then [] else [lexeme] := by
  have hend : (if found.isNone then [endNote] else []).filterMap readNote = [] := by
    split
    · exact List.filterMap_cons_none readNote_endNote
    · rfl
  rw [notes_lexical, List.filterMap_append, hend, List.append_nil]
  rcases lexeme with _ | ⟨c, lexeme⟩
  · rfl
  · exact List.filterMap_cons_some (readNote_lexemeNote (c :: lexeme))

end SessionError

/-! ## Lines -/

namespace Diagnostic

/-- A text in which no line ends is one line. -/
theorem lines_eq_singleton {cs : List Char} (hne : cs ≠ []) (h : '\n' ∉ cs) : lines cs = [cs] := by
  induction cs with
  | nil => exact absurd rfl hne
  | cons c cs ih =>
    rw [List.mem_cons, not_or] at h
    obtain ⟨hc, hcs⟩ := h
    rw [lines]
    · rcases cs with _ | ⟨d, cs⟩
      · rfl
      · rw [ih (List.cons_ne_nil d cs) hcs]
    · intro rest _ hrest
      rw [hrest] at hcs
      exact hcs List.mem_cons_self
    · exact fun hnewline => hc hnewline.symm

/-- The note is printed as one line. -/
theorem noteText_eq (margin : String) {note : Note} (hne : note.content ≠ "")
    (h : '\n' ∉ note.content.toList) :
    noteText margin note = margin ++ "= " ++ note.kind.text ++ ": " ++ note.content ++ "\n" := by
  have hlines : lines note.content.toList = [note.content.toList] :=
    lines_eq_singleton (fun hnil => hne (String.toList_eq_nil_iff.mp hnil)) h
  rw [noteText, hlines]
  show _ ++ String.ofList note.content.toList ++ "\n" ++ "" = _
  rw [String.ofList_toList, String.append_empty]

end Diagnostic

namespace SessionError

/-- Neither note is empty. -/
theorem content_ne_empty {note : Note} (h : note ∈ (lexical lexeme found).notes) :
    note.content ≠ "" := by
  rcases eq_of_mem_notes h with rfl | rfl
  · rw [← String.toList_inj.ne, lexemeNote, String.toList_append, String.toList_append]
    exact List.cons_ne_nil _ _
  · decide

/-- Bytes are spelled in visible ASCII characters, and what they spell is read back. So different
    bytes are never spelled alike. The message of a lexical error has no characters but these and
    blanks, and it tells the whole error, whatever its lexeme is and whatever was found after it.
    Its notes may also have the escape characters of a change of colour. Each is printed as one
    line. One of them tells the lexeme, unless this is empty, and the others tell none. -/
theorem lexical_errors_readable (lexeme : List UInt8) (found : Option UInt8) :
    (∀ c ∈ (spellAll lexeme).toList, 0x21 ≤ c.toNat ∧ c.toNat ≤ 0x7e) ∧
    unescape (spellAll lexeme).toList = some lexeme ∧
    (∀ other, spellAll other = spellAll lexeme ↔ other = lexeme) ∧
    let e := lexical lexeme found
    (∀ c ∈ e.message.toList, 0x20 ≤ c.toNat ∧ c.toNat ≤ 0x7e) ∧
    readMessage e.message = some e ∧
    (∀ note ∈ e.notes,
      (∀ c ∈ note.content.toList, c = '\x1b' ∨ 0x20 ≤ c.toNat ∧ c.toNat ≤ 0x7e) ∧
      ∀ margin, Diagnostic.noteText margin note =
        margin ++ "= " ++ note.kind.text ++ ": " ++ note.content ++ "\n") ∧
    e.notes.filterMap readNote = if lexeme = [] then [] else [lexeme] := by
  have hspelled : unescape (spellAll lexeme).toList = some lexeme := by
    rw [toList_spellAll, unescape_flatMap_escape]
  refine ⟨fun c hc => isGraphic_iff.mp (graphic_of_mem_spellAll hc), hspelled,
    fun other => spellAll_inj, fun c hc => printable_of_mem_message hc,
    readMessage_message lexeme found, fun note hnote => ?_, filterMap_readNote_notes lexeme found⟩
  have hprintable : ∀ c ∈ note.content.toList, c = '\x1b' ∨ 0x20 ≤ c.toNat ∧ c.toNat ≤ 0x7e :=
    fun c hc => printable_of_mem_notes hnote hc
  refine ⟨hprintable, fun margin => Diagnostic.noteText_eq margin (content_ne_empty hnote) ?_⟩
  intro hnewline
  exact absurd (hprintable _ hnewline) (by decide)

/-- A quote, a blank, a backslash in front of a letter, and an end of line, with a quote after
    them. -/
theorem lexical_errors_readable_quotes :
    let lexeme : List UInt8 := [0x60, 0x20, 0x5c, 0x6e, 0x0a]
    let e := lexical lexeme (some 0x60)
    '\x60' ∈ (spellAll lexeme).toList ∧ lexemeNote lexeme ∈ e.notes ∧
      e.message = "unexpected byte ``` after ``\\s\\\\n\\n`" ∧
      readMessage "unexpected byte ``` after ``\\s\\\\n\\n`" = some e ∧
      e.notes.filterMap readNote = [lexeme] := by
  intro lexeme e
  have hmessage : e.message = "unexpected byte ``` after ``\\s\\\\n\\n`" := by decide
  obtain ⟨_, _, _, _, hread, _, hnotes⟩ := lexical_errors_readable lexeme (some 0x60)
  rw [← hmessage]
  exact ⟨by decide, List.mem_cons_self, rfl, hread, hnotes⟩

end SessionError

end ByteLexer
