import ByteLexer.Cli.Run
import ByteLexer.Proofs.Byte.Utf8
import ByteLexer.Proofs.Lexer.Naming
import ByteLexer.Proofs.SExpression.Reading

/-! # The tokens of a file, printed

    To print the tokens of a file is to write, for each token that is not skipped, its kind, its
    text and where it starts. The end of a line is written after each of them. But the text is
    written as it is in the file, so a string that goes over several lines does so here as well.

    - **Lexemes.** The tokens of a file are lexemes, and only strings hold ends of lines.
    - **One token** ends one line, and those that its lexeme holds.
    - **Whole files.** The output has a line for each token exactly if no token holds the end of a
      line.
-/

namespace ByteLexer

open Session (Consistent Drained Stream ofInput)

/-! ## Lexemes -/

namespace SExpression

variable {l : Lexer} {m : Metrics} {s : Session} {t : Token} {kind : String} {w : List UInt8}

theorem Lexeme.newline_not_mem_kind (h : Lexeme kind w) : '\n' ∉ kind.toList := by
  have hreserved : ∀ p ∈ reserved, '\n' ∉ p.1.toList := by decide +kernel
  have hsigns : ∀ p ∈ signs, '\n' ∉ p.1.toList := by decide +kernel
  cases h with
  | keyword hk => exact hreserved _ hk
  | punctuation hp => exact hsigns _ hp
  | _ => decide

/-- What a session gives as a token is a lexeme of its kind. -/
theorem lexeme_of_nextRaw (hs : Consistent (Lexer.ofPatterns patterns) m s)
    (ht : s.nextRaw.answer = .ok (some t)) : Lexeme t.kind t.lexeme := by
  have hne : s.rest ≠ [] := by
    intro hnil
    rw [Session.nextRaw_of_rest_eq_nil hnil] at ht
    cases ht
  rcases nextRaw_lexeme_cases hs hne with
    ⟨kind, u, hu, ⟨_, t', ht', hkind, hlexeme, _⟩ | ⟨_, herror⟩⟩ | ⟨_, f, herror⟩
  · rw [ht] at ht'
    obtain rfl := Option.some.inj (Except.ok.inj ht')
    rw [hkind, hlexeme]
    exact hu.lexeme
  · rw [ht] at herror
    cases herror
  · rw [ht] at herror
    cases herror

/-- So are all tokens of an input. -/
theorem lexeme_of_mem_drainRaw {input : List UInt8}
    (ht : t ∈ (ofInput (Lexer.ofPatterns patterns) m input).drainRaw.answer.tokens) :
    Lexeme t.kind t.lexeme :=
  (Session.drained_drainRaw _).forall_mem (fun _ hs => Consistent.nextRaw hs)
    (fun _ _ hs ht => lexeme_of_nextRaw hs ht) (Session.consistent_ofInput _ m input) t ht

end SExpression

/-! ## One token -/

namespace Cli

open SExpression (ascii drain_lexeme)

variable {t : Token}

/-- The line of a token, without its end. -/
def tokenBody (t : Token) : String :=
  t.kind ++ " " ++ t.text ++ " " ++ (t.span.start.line + 1).repr ++ ":"
    ++ (t.span.start.column + 1).repr

theorem tokenLine_eq (t : Token) : tokenLine t = tokenBody t ++ "\n" := by
  show t.kind ++ " " ++ t.text ++ (" " ++ (t.span.start.line + 1).repr ++ ":"
    ++ (t.span.start.column + 1).repr ++ "\n") = _
  simp only [tokenBody, String.append_assoc]

theorem count_newline_repr (n : Nat) : n.repr.toList.count '\n' = 0 :=
  List.count_eq_zero.mpr fun h => absurd (isDigit_of_mem_repr h) (by decide)

/-- The ends of lines in the line of a token are those of its lexeme. -/
theorem count_newline_tokenBody (hkind : '\n' ∉ t.kind.toList) :
    (tokenBody t).toList.count '\n' = t.lexeme.count newline := by
  have hnewline : newline < 0x80 := by decide
  have htext : t.text.toList.count '\n' = t.lexeme.count newline :=
    Byte.Utf8.count_decode hnewline t.lexeme
  have hblank : " ".toList.count '\n' = 0 := by decide
  have hcolon : ":".toList.count '\n' = 0 := by decide
  simp only [tokenBody, String.toList_append, List.count_append, count_newline_repr, htext,
    List.count_eq_zero.mpr hkind, hblank, hcolon, Nat.add_zero, Nat.zero_add]

theorem newline_mem_tokenBody_iff (hkind : '\n' ∉ t.kind.toList) :
    '\n' ∈ (tokenBody t).toList ↔ newline ∈ t.lexeme := by
  rw [← List.count_pos_iff, count_newline_tokenBody hkind, List.count_pos_iff]

/-! ## Whole files -/

variable {content : List UInt8} {o : Outcome} {x : Stream}

/-- The tokens of a file that are not skipped, up to its end or the first failure. -/
def fileTokens (l : Lexer) (content : List UInt8) : Stream :=
  (ofInput l metrics content).drainRaw.answer.unskipped

theorem lexeme_of_mem_fileTokens
    (ht : t ∈ (fileTokens (Lexer.ofPatterns SExpression.patterns) content).tokens) :
    SExpression.Lexeme t.kind t.lexeme ∧ t.kind ≠ skipKind := by
  obtain ⟨hmem, hkind⟩ := List.mem_filter.mp ht
  exact ⟨SExpression.lexeme_of_mem_drainRaw hmem, of_decide_eq_true hkind⟩

/-- What is printed for some tokens.

    - `output`: a text for each, with the end of a line after it.
    - `ends`: there are as many ends of lines as tokens, and those in the tokens.
    - `strings`: only strings hold ends of lines.
    - `lines`: there is a line for each token exactly if no token holds the end of a line.
    - `exit`: the exit code tells whether there was a failure after the tokens. -/
structure Printed (o : Outcome) (x : Stream) : Prop where
  output : o.output = String.join (x.tokens.map fun t => tokenBody t ++ "\n")
  ends : o.output.toList.count '\n' =
    x.tokens.length + (x.tokens.map fun t => t.lexeme.count newline).sum
  strings : ∀ t ∈ x.tokens, newline ∈ t.lexeme → t.kind = "STRING"
  lines : Lines o.output (x.tokens.map tokenBody) ↔ ∀ t ∈ x.tokens, newline ∉ t.lexeme
  exit : o.exitCode = 0 ↔ x.failure = none

theorem tokens_output (l : Lexer) (file : String) (content : List UInt8) :
    (tokens l file content).1.output =
      String.join ((ofInput l metrics content).drain.answer.tokens.map tokenLine) := by
  rcases hfailure : (ofInput l metrics content).drain.answer.failure with _ | f
  · simp only [tokens, hfailure]
  · simp only [tokens, hfailure]

theorem tokens_exitCode_eq_zero_iff (l : Lexer) (file : String) (content : List UInt8) :
    (tokens l file content).1.exitCode = 0 ↔
      (ofInput l metrics content).drain.answer.failure = none := by
  rcases hfailure : (ofInput l metrics content).drain.answer.failure with _ | f
  · simp only [tokens, hfailure]
  · simp only [tokens, hfailure, Nat.one_ne_zero, reduceCtorEq]

/-- Tokens are printed like this whatever they are, if they are lexemes that are not skipped. -/
theorem printed_of_lexemes
    (hlexemes : ∀ t ∈ x.tokens, SExpression.Lexeme t.kind t.lexeme ∧ t.kind ≠ skipKind)
    (houtput : o.output = String.join (x.tokens.map tokenLine))
    (hexit : o.exitCode = 0 ↔ x.failure = none) : Printed o x := by
  have hkinds : ∀ t ∈ x.tokens, '\n' ∉ t.kind.toList :=
    fun t ht => (hlexemes t ht).1.newline_not_mem_kind
  have hjoin : o.output = String.join ((x.tokens.map tokenBody).map (· ++ "\n")) := by
    rw [houtput, List.map_map]
    exact congrArg String.join (List.map_congr_left fun t _ => tokenLine_eq t)
  refine ⟨?_, ?_, fun t ht hmem => ?_, ?_, hexit⟩
  · rw [hjoin, List.map_map]
    rfl
  · rw [hjoin, count_newline_join, List.length_map, List.map_map]
    refine congrArg (_ + List.sum ·) (List.map_congr_left fun t ht => ?_)
    exact count_newline_tokenBody (hkinds t ht)
  · obtain ⟨hlexeme, hkind⟩ := hlexemes t ht
    exact hlexeme.eq_string_of_blank hkind SExpression.newline_mem_blanks hmem
  · have hbodies : (∀ t ∈ x.tokens, '\n' ∉ (tokenBody t).toList) ↔
        ∀ t ∈ x.tokens, newline ∉ t.lexeme :=
      forall₂_congr fun t ht => not_congr (newline_mem_tokenBody_iff (hkinds t ht))
    rw [← hbodies]
    refine ⟨fun h t ht => h.single _ (List.mem_map_of_mem ht), fun h => ⟨hjoin, ?_⟩⟩
    exact List.forall_mem_map.mpr h

/-- To run the command is to print the tokens, and perhaps some of the log. -/
theorem run_tokens {l : Lexer} {readFile : String → Except FileError (List UInt8)} {file : String}
    (hl : SExpression.lexer? = .ok l) (hread : readFile file = .ok content) (verbosity : Nat) :
    (run readFile ⟨.tokens file, verbosity⟩).output = (tokens l file content).1.output ∧
      (run readFile ⟨.tokens file, verbosity⟩).exitCode = (tokens l file content).1.exitCode := by
  simp only [run, hl, runCommand, hread, and_self]

theorem printed_run {l : Lexer} {readFile : String → Except FileError (List UInt8)} {file : String}
    (hl : SExpression.lexer? = .ok l) (hread : readFile file = .ok content) (verbosity : Nat) :
    Printed (run readFile ⟨.tokens file, verbosity⟩) (fileTokens l content) := by
  obtain ⟨houtput, hexit⟩ := run_tokens hl hread verbosity
  obtain ⟨htable, rfl⟩ := Lexer.compile_eq_ok_iff.mp hl
  have hdrain : (ofInput (Lexer.ofPatterns SExpression.patterns) metrics content).drain.answer =
      fileTokens (Lexer.ofPatterns SExpression.patterns) content :=
    Session.drain_ofInput htable metrics content
  refine printed_of_lexemes (fun _ => lexeme_of_mem_fileTokens) ?_ ?_
  · rw [houtput, tokens_output, hdrain]
  · rw [hexit, tokens_exitCode_eq_zero_iff, hdrain]

/-- The table compiles. Whatever a file holds, repeated calls for tokens that are not skipped give
    some tokens and end, at its end or at a failure. Printing the file writes, for each of these in
    order, its kind, its text and where it starts, counted from one, and then the end of a line.
    That makes one line for each token exactly if no string goes over several lines. The exit code
    is zero exactly if there is no failure. -/
theorem run_prints_tokens {readFile : String → Except FileError (List UInt8)} {file : String}
    (hread : readFile file = .ok content) (verbosity : Nat) :
    ∃ l, SExpression.lexer? = .ok l ∧
      (∃ e, Drained Session.next (ofInput l metrics content) (fileTokens l content) e) ∧
      (∀ t ∈ (fileTokens l content).tokens, t.kind ≠ skipKind) ∧
      Printed (run readFile ⟨.tokens file, verbosity⟩) (fileTokens l content) := by
  have hl := Lexer.compile_eq_ok_iff.mpr ⟨SExpression.validTable_patterns, rfl⟩
  refine ⟨_, hl, ?_, fun t ht => (lexeme_of_mem_fileTokens ht).2, printed_run hl hread verbosity⟩
  obtain ⟨e, he⟩ := Session.drained_drain
    (Session.atRest_ofInput (Lexer.ofPatterns SExpression.patterns) metrics content) rfl
  rw [Session.drain_ofInput SExpression.validTable_patterns] at he
  exact ⟨e, he⟩

/-- A name alone is printed on one line. -/
theorem run_prints_tokens_name :
    let readFile : String → Except FileError (List UInt8) := fun _ => .ok (ascii "x")
    readFile "in.s" = .ok (ascii "x") ∧
      ∃ l t, SExpression.lexer? = .ok l ∧ t.kind = "ID" ∧ t.lexeme = ascii "x" ∧
        fileTokens l (ascii "x") = ⟨[t], none⟩ ∧
        Lines (run readFile ⟨.tokens "in.s", 0⟩).output [tokenBody t] ∧
        (run readFile ⟨.tokens "in.s", 0⟩).exitCode = 0 := by
  intro readFile
  have hread : readFile "in.s" = .ok (ascii "x") := rfl
  obtain ⟨l, hl, _, _, hprinted⟩ := run_prints_tokens hread 0
  obtain ⟨htable, rfl⟩ := Lexer.compile_eq_ok_iff.mp hl
  have hname : SExpression.Lexeme "ID" (ascii "x") := .identifier (by decide) (by decide)
  obtain ⟨t, ht, hkind, hlexeme⟩ := drain_lexeme (m := metrics) hname (by decide) (by decide)
  rw [Session.drain_ofInput htable] at ht
  have hfile : fileTokens (Lexer.ofPatterns SExpression.patterns) (ascii "x") = ⟨[t], none⟩ := ht
  rw [hfile] at hprinted
  refine ⟨hread, _, t, hl, hkind, hlexeme, hfile, hprinted.lines.mpr ?_, hprinted.exit.mpr rfl⟩
  rw [List.forall_mem_singleton, hlexeme]
  decide

/-- A string with the end of a line in it is one token, and no failure comes after it. But two lines
    are printed. -/
theorem run_prints_two_lines :
    ∃ l, SExpression.lexer? = .ok l ∧
      let content := ascii "\"a\nb\""
      let o := run (fun _ => .ok content) ⟨.tokens "in.s", 0⟩
      (fileTokens l content).tokens.length = 1 ∧ (fileTokens l content).failure = none ∧
        o.output.toList.count '\n' = 2 ∧
        ∀ lines, Lines o.output lines → lines.length ≠ (fileTokens l content).tokens.length := by
  have hl := Lexer.compile_eq_ok_iff.mpr ⟨SExpression.validTable_patterns, rfl⟩
  refine ⟨_, hl, ?_⟩
  intro content o
  have hstring : SExpression.Lexeme "STRING" content :=
    .string ⟨ascii "a\nb", by decide, by decide⟩
  obtain ⟨t, ht, _, hlexeme⟩ := drain_lexeme (m := metrics) hstring (by decide) (by decide)
  rw [Session.drain_ofInput SExpression.validTable_patterns] at ht
  have hfile : fileTokens (Lexer.ofPatterns SExpression.patterns) content = ⟨[t], none⟩ := ht
  have hprinted : Printed o (fileTokens (Lexer.ofPatterns SExpression.patterns) content) :=
    printed_run hl rfl 0
  have hends := hprinted.ends
  rw [hfile] at hends ⊢
  have htwo : o.output.toList.count '\n' = 2 := by
    rw [hends, List.map_singleton, hlexeme]
    show 1 + [(ascii "\"a\nb\"").count newline].sum = 2
    decide
  refine ⟨rfl, rfl, htwo, fun lines hlines hone => ?_⟩
  rw [hlines.count_newline, hone] at htwo
  cases htwo

end Cli

end ByteLexer
