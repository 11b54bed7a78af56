import ByteLexer.Proofs.Lexer.States
import ByteLexer.Proofs.Session.LongestMatch
import Mathlib.Tactic.TFAE

/-! # When following to the end finds the longest match

    A session follows its automaton for as long as it can, and only there it looks whether
    a token ends. It does not go back to a place where one could have ended before, so it
    may fail although some part of the rest is a token.

    - **Longest matches.** The longest part of some bytes that is a token.
    - **Accepting states.** If edges lead from accepting states to accepting states, then
      whatever is viable after a token is a token itself.
    - **Agreement.** This is the case exactly for the tables whose sessions always return
      the longest match.
-/

namespace ByteLexer

open Automaton

variable {patterns : List Pattern} {r u v w : List UInt8} {i j : Nat}

/-! ## Longest matches -/

/-- The longest part of some bytes, from their start on, that is a token, and the index of the
    first pattern that recognizes it. -/
structure LongestMatch (patterns : List Pattern) (r u : List UInt8) (i : Nat) : Prop where
  initial_part : u <+: r
  due : TokenDue patterns u
  longest : ∀ v, v <+: r → TokenDue patterns v → v.length ≤ u.length
  first : FirstMatch patterns u i

/-- There is at most one. -/
theorem LongestMatch.unique (hu : LongestMatch patterns r u i) (hv : LongestMatch patterns r v j) :
    u = v ∧ i = j := by
  have hle := hv.longest u hu.initial_part hu.due
  have hge := hu.longest v hv.initial_part hv.due
  obtain rfl := eq_of_parts hu.initial_part hv.initial_part (Nat.le_antisymm hle hge)
  exact ⟨rfl, hu.first.unique hv.first⟩

/-- If the longest viable part is a token, it is the longest match. -/
theorem LongestViable.longestMatch (hu : LongestViable patterns r u) (hdue : TokenDue patterns u)
    (hi : FirstMatch patterns u i) : LongestMatch patterns r u i where
  initial_part := hu.initial_part
  due := hdue
  longest v hv hdue := hu.longest v hv hdue.viable
  first := hi

/-- A token is the longest match of itself with one more byte, unless that is a token again. -/
theorem TokenDue.longestMatch_concat {b : UInt8} (hw : TokenDue patterns w)
    (hi : FirstMatch patterns w i) (hno : ¬TokenDue patterns (w ++ [b])) :
    LongestMatch patterns (w ++ [b]) w i where
  initial_part := List.prefix_append w [b]
  due := hw
  longest v hv hdue := by
    rcases List.prefix_concat_iff.mp hv with rfl | hv
    · exact absurd hdue hno
    · exact hv.length_le
  first := hi

/-! ## Accepting states -/

/-- All edges that leave an accepting state, other than the initial one, lead to accepting
    states. -/
def Lexer.StaysAccepting (l : Lexer) : Prop :=
  ∀ q s r, q ∈ l.automaton.accepting → q ≠ l.automaton.initial → r ∈ l.automaton.targets q s →
    r ∈ l.automaton.accepting

/-- What holds along an edge holds along a path, as no edge leads to the initial state. -/
theorem Lexer.StaysAccepting.path (hstay : (ofPatterns patterns).StaysAccepting)
    (h : ValidTable patterns) {q t : LexerState}
    (hpath : (ofPatterns patterns).automaton.Path q w t)
    (hacc : q ∈ (ofPatterns patterns).automaton.accepting)
    (hne : q ≠ (ofPatterns patterns).automaton.initial) :
    t ∈ (ofPatterns patterns).automaton.accepting := by
  have hlater : ∀ {q s r}, r ∈ (ofPatterns patterns).automaton.targets q s →
      r ≠ (ofPatterns patterns).automaton.initial := by
    intro q s r hr heq
    rw [heq] at hr
    exact initial_not_mem_targets h hr
  induction hpath with
  | nil => exact hacc
  | silent hr _ ih => exact ih (hstay _ _ _ hacc hne hr) (hlater hr)
  | byte hr _ ih => exact ih (hstay _ _ _ hacc hne hr) (hlater hr)

/-- Then whatever is viable after a token is a token itself. -/
theorem Lexer.StaysAccepting.tokenDue (hstay : (ofPatterns patterns).StaysAccepting)
    (h : ValidTable patterns) (hv : TokenDue patterns v) (hvu : v <+: u)
    (hu : ∃ p ∈ patterns, p.automaton.Viable u) : TokenDue patterns u := by
  obtain ⟨w, rfl⟩ := hvu
  have hpath := (path_automaton_iff h).mpr ⟨hu, rfl⟩
  -- the path passes through the state of the token
  obtain ⟨q, hq, hrest⟩ := hpath.cut
  have hacc := (mem_accepting_iff_of_path h hq).mpr hv.2
  have hne : q ≠ (ofPatterns patterns).automaton.initial := by
    intro heq
    rw [heq] at hq
    exact hv.1 (eq_nil_of_path_initial h hq)
  have hend := hstay.path h hrest hacc hne
  exact ⟨List.append_ne_nil_of_left_ne_nil hv.1 w, (mem_accepting_iff_of_path h hpath).mp hend⟩

/-! ## Agreement -/

namespace Session

variable {m : Metrics} {s : Session}

/-- The next token is the longest match of the rest, and there is an error if the rest has
    none. -/
def ReadsLongestMatch (patterns : List Pattern) (s : Session) : Prop :=
  (∀ u i, (∃ span, s.nextRaw.answer = .ok (some (s.token i u span))) ↔
    LongestMatch patterns s.rest u i) ∧
  ((∃ e, s.nextRaw.answer = .error (.located e)) ↔ ¬∃ u i, LongestMatch patterns s.rest u i)

theorem readsLongestMatch_of_token {span : Span}
    (hanswer : s.nextRaw.answer = .ok (some (s.token i u span)))
    (hmatch : LongestMatch patterns s.rest u i) : s.ReadsLongestMatch patterns := by
  unfold ReadsLongestMatch
  rw [hanswer]
  refine ⟨fun v j => ⟨fun hv => ?_, fun hv => ?_⟩, ⟨fun he => ?_, fun hno => ?_⟩⟩
  · obtain ⟨span', heq⟩ := hv
    obtain ⟨_, rfl, rfl, _⟩ := (Token.mk.injEq ..).mp (Option.some.inj (Except.ok.inj heq))
    exact hmatch
  · obtain ⟨rfl, rfl⟩ := hmatch.unique hv
    exact ⟨span, rfl⟩
  · obtain ⟨e, he⟩ := he
    cases he
  · exact absurd ⟨u, i, hmatch⟩ hno

theorem readsLongestMatch_of_error {e : Located}
    (hanswer : s.nextRaw.answer = .error (.located e))
    (hno : ¬∃ u i, LongestMatch patterns s.rest u i) : s.ReadsLongestMatch patterns := by
  unfold ReadsLongestMatch
  rw [hanswer]
  refine ⟨fun v j => ⟨fun hv => ?_, fun hv => ?_⟩, ⟨fun _ => hno, fun _ => ⟨e, rfl⟩⟩⟩
  · obtain ⟨span, heq⟩ := hv
    cases heq
  · exact absurd ⟨v, j, hv⟩ hno

/-- Where everything can be measured, the longest viable part is the next token, or there is an
    error. -/
theorem Consistent.nextRaw_cases (h : ValidTable patterns)
    (hs : Consistent (Lexer.ofPatterns patterns) m s) (hu : LongestViable patterns s.rest u)
    (hne : s.rest ≠ []) (hm : s.nextRaw.answer ≠ .error .unmeasurable) :
    (∃ i span, TokenDue patterns u ∧ FirstMatch patterns u i ∧
      s.nextRaw.answer = .ok (some (s.token i u span))) ∨
    (¬TokenDue patterns u ∧ ∃ e, s.nextRaw.answer = .error (.located e)) := by
  rw [answer_nextRaw] at hm ⊢
  rcases hs.read_longest h hu hne with htoken | ⟨hno, span, herror⟩ | hunmeasurable
  · exact .inl htoken
  · exact .inr ⟨hno, _, herror⟩
  · exact absurd hunmeasurable hm

/-- An input that is viable as a whole but no token is an error, whatever tokens it begins
    with. -/
theorem nextRaw_error_of_viable (h : ValidTable patterns) (m : Metrics) (hne : w ≠ [])
    (hviable : ∃ p ∈ patterns, p.automaton.Viable w) (hno : ¬TokenDue patterns w) :
    ∃ f, (ofInput (Lexer.ofPatterns patterns) m w).nextRaw.answer = .error f := by
  have hs := consistent_ofInput (Lexer.ofPatterns patterns) m w
  have hread := hs.read_of_not_tokenDue h (LongestViable.refl hviable) hne hno
  rw [answer_nextRaw, hread]
  exact ⟨_, rfl⟩

/-- Three ways to say that no token gets lost by never going back, for every table that
    compiles: that the sessions of every metrics read the longest match of the rest wherever
    there is a rest, unless a tab has no width; that those of one metrics, in which tabs have a
    width, always do so; and that accepting states stay accepting. -/
theorem reads_longest_match_tfae {l : Lexer} (h : Lexer.compile patterns = .ok l) : List.TFAE [
    ∀ (m : Metrics) (input : List UInt8) (history : List Call),
      let s := (ofInput l m input).after history
      s.rest ≠ [] → s.nextRaw.answer ≠ .error .unmeasurable → s.ReadsLongestMatch patterns,
    ∃ m : Metrics, m.tabStop ≠ 0 ∧ ∀ (input : List UInt8) (history : List Call),
      let s := (ofInput l m input).after history
      s.rest ≠ [] → s.ReadsLongestMatch patterns,
    l.StaysAccepting] := by
  obtain ⟨htable, rfl⟩ := Lexer.compile_eq_ok_iff.mp h
  tfae_have 1 → 2 := by
    intro hall
    refine ⟨{}, by decide, fun input history hne => hall {} input history hne fun hm => ?_⟩
    -- all bytes can be measured by the usual metrics
    have hs := consistent_after (Lexer.ofPatterns patterns) {} input history
    rw [answer_nextRaw] at hm
    have hzero := tabStop_eq_zero_of_read (Prod.ext hm rfl)
    rw [hs.metrics] at hzero
    cases hzero
  tfae_have 2 → 3 := by
    intro hex q s r hacc hne hr
    obtain ⟨m, _, hall⟩ := hex
    obtain ⟨w, b, rfl, hq, hpath⟩ := Lexer.exists_path_of_mem_targets htable hr
    rw [Lexer.mem_accepting_iff_of_path htable hpath]
    have hw : TokenDue patterns w := by
      refine ⟨fun hnil => hne ?_, (Lexer.mem_accepting_iff_of_path htable hq).mp hacc⟩
      rw [hnil] at hq
      exact (Lexer.deterministic_automaton patterns).path_nil_iff.mp hq
    have hlong : w ++ [b] ≠ [] := List.append_ne_nil_of_right_ne_nil w (List.cons_ne_nil b [])
    -- otherwise the word that leads across the edge is an input on which a token gets lost
    by_contra hrec
    have hno : ¬TokenDue patterns (w ++ [b]) := fun hdue => hrec hdue.2
    obtain ⟨i, _, hfirst⟩ := htable.kind?_of_tokenDue hq hw
    obtain ⟨hreads, _⟩ := hall (w ++ [b]) [] hlong
    obtain ⟨span, htoken⟩ := (hreads w i).mpr (hw.longestMatch_concat hfirst hno)
    obtain ⟨f, herror⟩ := nextRaw_error_of_viable htable m hlong
      ((Lexer.path_automaton_iff htable).mp hpath).1 hno
    rw [after, List.foldl_nil, herror] at htoken
    cases htoken
  tfae_have 3 → 1 := by
    intro hstay m input history s hne hm
    have hs : Consistent (Lexer.ofPatterns patterns) m s := consistent_after _ _ _ _
    obtain ⟨u, hu⟩ := htable.exists_longestViable s.rest
    rcases hs.nextRaw_cases htable hu hne hm with ⟨i, span, hdue, hfirst, hanswer⟩ | ⟨hno, e, hanswer⟩
    · exact readsLongestMatch_of_token hanswer (hu.longestMatch hdue hfirst)
    · refine readsLongestMatch_of_error hanswer fun hex => hno ?_
      obtain ⟨v, j, hv⟩ := hex
      -- a token before the end of the viable part would make all of it a token
      have hvu : v <+: u := List.prefix_of_prefix_length_le hv.initial_part hu.initial_part
        (hu.longest v hv.initial_part hv.due.viable)
      exact hstay.tokenDue htable hv.due hvu hu.viable
  tfae_finish

/-- With one token that is the beginning of another one, but not of all that leads there, a
    token gets lost. -/
theorem reads_longest_match_tfae_gap :
    let patterns : List Pattern := [⟨"A", Regex.word [97]⟩, ⟨"ABC", Regex.word [97, 98, 99]⟩]
    let l := Lexer.ofPatterns patterns
    Lexer.compile patterns = .ok l ∧ LongestMatch patterns [97, 98] [97] 0 ∧
    (∃ f, (ofInput l {} [97, 98]).nextRaw.answer = .error f) ∧ ¬l.StaysAccepting := by
  intro patterns l
  have htable : ValidTable patterns := ⟨List.cons_ne_nil _ _, by decide, by decide⟩
  have hcompile : Lexer.compile patterns = .ok l := Lexer.compile_eq_ok_iff.mpr ⟨htable, rfl⟩
  have hword : ∀ u w, (Regex.word u).recognizes w = true ↔ w = u := fun u w => by
    rw [recognizes_iff_accepts, Regex.accepts_word_iff]
  have htoken : ∀ w, TokenDue patterns w ↔ w ≠ [] ∧ (w = [97] ∨ w = [97, 98, 99]) := by
    intro w
    simp [TokenDue, patterns, hword]
  have hfirst : FirstMatch patterns [97] 0 :=
    ⟨⟨_, rfl, (hword _ _).mpr rfl⟩, fun j hj => absurd hj (Nat.not_lt_zero j)⟩
  have hno : ¬TokenDue patterns ([97] ++ [98]) := by
    rw [htoken]
    decide
  have hlost : LongestMatch patterns [97, 98] [97] 0 :=
    ((htoken [97]).mpr (by decide)).longestMatch_concat hfirst hno
  -- the first two bytes of the longer token are viable
  have hviable : ∃ p ∈ patterns, p.automaton.Viable [97, 98] := by
    have haccepts : (Regex.word [97, 98, 99]).Accepts ([97, 98] ++ [99]) :=
      recognizes_iff_accepts.mp ((hword _ _).mpr rfl)
    exact ⟨_, List.mem_cons_of_mem _ List.mem_cons_self,
      haccepts.viable.of_append⟩
  have herror : ∀ m, ∃ f, (ofInput l m [97, 98]).nextRaw.answer = .error f := fun m =>
    nextRaw_error_of_viable htable m (List.cons_ne_nil _ _) hviable hno
  refine ⟨hcompile, hlost, herror {}, fun hstay => ?_⟩
  -- if accepting states stayed accepting, the lost token would be read
  have hiff := (reads_longest_match_tfae hcompile).out 2 1
  obtain ⟨m, _, hall⟩ := hiff.mp hstay
  obtain ⟨hreads, _⟩ := hall [97, 98] [] (List.cons_ne_nil _ _)
  obtain ⟨span, htoken⟩ := (hreads [97] 0).mpr hlost
  obtain ⟨f, hf⟩ := herror m
  rw [after, List.foldl_nil, hf] at htoken
  cases htoken

end Session

end ByteLexer
