import ByteLexer.Automaton.Run
import ByteLexer.Session.Token

/-! # Sessions

    A session reads an input token by token. It always follows the automaton of its
    lexer for as long as that can go on; if the run ends where no token may end, that
    is an error and the session stays at the start of the lexeme.

    - **`read`** reads one lexeme, whatever its kind.
    - **`nextRaw`, `next`** return the next token; `next` leaves out those that are
      skipped.
    - **`peek`** foretells `next`; **`consume`** and **`expect`** ask for a kind.
    - **`iterate`** is `next` up to the first error; **`drain`** iterates to the end.
    - **`rebind`** starts again on another input.
-/

namespace ByteLexer

/-- The state of reading an input. `rest` is what has not been read, `offset` and `position`
    are the place where it begins, `current` is the last token that was returned, and
    `failed` tells whether iteration has met an error. -/
structure Session where
  lexer : Lexer
  metrics : Metrics
  input : List UInt8
  rest : List UInt8
  offset : Nat
  position : Position
  current : Option Token
  failed : Bool
  run : Run LexerState

namespace Session

/-- What a call answers, the tokens that it reports as read, and the session afterwards. -/
@[ext]
structure Reply (α : Type) where
  answer : α
  reported : List Token
  session : Session

/-- The answer of a call that may find a token, find the end of the input, or fail. -/
abbrev Outcome := Except Failure (Option Token)

/-! ## Opening -/

/-- A session at the start of an input. -/
def ofInput (l : Lexer) (m : Metrics) (input : List UInt8) : Session where
  lexer := l
  metrics := m
  input := input
  rest := input
  offset := 0
  position := {}
  current := none
  failed := false
  run := Run.ofAutomaton l.automaton

/-- The session at the start of another input. -/
def rebind (s : Session) (input : List UInt8) : Session :=
  { s with
    input, rest := input, offset := 0, position := {}, current := none, failed := false
    run := s.run.restart }

/-- Whether the whole input has been read. -/
def atEnd (s : Session) : Bool :=
  s.rest.isEmpty

/-! ## Reading one lexeme -/

/-- Measures some bytes from the current position on. -/
def measure? (s : Session) (bytes : List UInt8) : Option Span :=
  if s.metrics.Measures (latin1 bytes) then
    some (Span.ofText s.metrics s.position (latin1 bytes))
  else none

/-- The failure with an error that covers some bytes from the current position on. -/
def failure (s : Session) (e : SessionError) (bytes : List UInt8) : Failure :=
  match s.measure? bytes with
  | some span => .located ⟨e, span⟩
  | none => .unmeasurable

/-- The token of a kind at the current position. -/
def token (s : Session) (index : Nat) (lexeme : List UInt8) (span : Span) : Token :=
  ⟨(s.lexer.kind? index).getD "", index, lexeme, s.offset, span⟩

/-- The session after a token, with the rest of the input. -/
def pass (s : Session) (t : Token) (rest : List UInt8) : Session :=
  { s with rest, offset := s.offset + t.lexeme.length, position := t.span.stop }

/-- The session with its run at the initial state. -/
def restarted (s : Session) : Session :=
  { s with run := s.run.restart }

/-- Settles where the run of a session has got stuck: on a token, if one may end there and
    something has been consumed, or else on an error. Only a token moves the session on. The run
    is restarted on every way out. -/
def settle (s : Session) (x : Run.Stretch LexerState) : Outcome × Session :=
  match x.error with
  | some e => (.error (s.failure (.automaton e) x.consumed), s.restarted)
  | none =>
    match s.run.state.kind?, x.consumed with
    | some index, b :: more =>
      match s.measure? (b :: more) with
      | some span =>
        let t := s.token index (b :: more) span
        (.ok (some t), s.restarted.pass t x.rest)
      | none => (.error .unmeasurable, s.restarted)
    | _, lexeme =>
      let found := x.rest.head?
      (.error (s.failure (.lexical lexeme found) (lexeme ++ found.toList)), s.restarted)

/-- Reads the lexeme at the current position, as far as the automaton can follow. -/
def read (s : Session) : Outcome × Session :=
  if s.atEnd then (.ok none, s)
  else
    let x := s.restarted.run.follow s.rest
    { s with run := x.run }.settle x

/-- Where a token is settled, the run has consumed something and the rest is left. -/
theorem settle_token {s s' : Session} {x : Run.Stretch LexerState} {t : Token}
    (h : s.settle x = (.ok (some t), s')) : x.consumed ≠ [] ∧ s'.rest = x.rest := by
  unfold settle at h
  split at h
  · simp at h
  · split at h
    · rename_i hc
      split at h
      · simp only [Prod.mk.injEq] at h
        exact ⟨by simp [hc], by rw [← h.2]; rfl⟩
      · simp at h
    · simp at h

/-- Reading a token consumes at least one byte. -/
theorem rest_length_lt_of_read {s s' : Session} {t : Token} (h : s.read = (.ok (some t), s')) :
    s'.rest.length < s.rest.length := by
  unfold read at h
  split at h
  · simp at h
  · obtain ⟨hne, hr⟩ := settle_token h
    have hx := congrArg List.length (Run.consumed_append_rest s.restarted.run s.rest)
    have := List.length_pos_iff.mpr hne
    rw [List.length_append] at hx
    rw [hr]
    omega

/-! ## Tokens one at a time -/

/-- The next token, skipped ones included. -/
def nextRaw (s : Session) : Reply Outcome :=
  match s.read with
  | (.ok (some t), s') => ⟨.ok (some t), [], { s' with current := some t }⟩
  | (answer, s') => ⟨answer, [], s'⟩

/-- The next token that is not skipped. -/
def next (s : Session) : Reply Outcome :=
  match h : s.read with
  | (.ok (some t), s') =>
    if s.lexer.isSkip t.index then
      have := rest_length_lt_of_read h
      let r := s'.next
      { r with reported := t :: r.reported }
    else ⟨.ok (some t), [t], { s' with current := some t }⟩
  | (answer, s') => ⟨answer, [], s'⟩
termination_by s.rest.length

/-- The next token that is not skipped, without moving on. -/
def peek (s : Session) : Reply Outcome :=
  let r := s.next
  { r with session := { r.session with
    rest := s.rest, offset := s.offset, position := s.position, current := s.current } }

/-- Reads the next token, which has to be of a given kind; it is read in any case. -/
def consume (s : Session) (kind : String) : Reply (Except Failure Token) :=
  let r := s.next
  let answer := match r.answer with
    | .error e => .error e
    | .ok (some t) =>
      if t.kind = kind then .ok t
      else .error (.located ⟨.unexpected kind (some (t.kind, t.lexeme)), t.span⟩)
    | .ok none =>
      .error (.located ⟨.unexpected kind none, Span.emptyAt r.session.position⟩)
  ⟨answer, r.reported, r.session⟩

/-- Another name of `consume`. -/
def expect (s : Session) (kind : String) : Reply (Except Failure Token) :=
  s.consume kind

/-! ## Iteration -/

/-- The next token or error, until there has been an error. -/
def iterate (s : Session) : Reply (Option (Except Failure Token)) :=
  if s.failed then ⟨none, [], s⟩
  else
    let r := s.next
    match r.answer with
    | .ok (some t) => ⟨some (.ok t), r.reported, r.session⟩
    | .ok none => ⟨none, r.reported, r.session⟩
    | .error e => ⟨some (.error e), r.reported, { r.session with failed := true }⟩

/-- Some tokens, and the failure after them if that is why there are no more. -/
structure Stream where
  tokens : List Token
  failure : Option Failure
deriving DecidableEq, Repr

/-- Puts a token in front of a stream. -/
def Stream.cons (t : Token) (x : Stream) : Stream :=
  { x with tokens := t :: x.tokens }

theorem rest_length_lt_of_next {s s' : Session} {t : Token} {reported : List Token}
    (h : s.next = ⟨.ok (some t), reported, s'⟩) : s'.rest.length < s.rest.length := by
  fun_induction next s generalizing reported with
  | case1 s u mid hr hs hlt r =>
    rename_i ih
    obtain ⟨ha, _, rfl⟩ := (Reply.mk.injEq ..).mp h
    exact Nat.lt_trans (ih (Reply.ext ha rfl rfl)) hlt
  | case2 s u mid hr hs =>
    have hlt := rest_length_lt_of_read hr
    obtain ⟨_, _, rfl⟩ := (Reply.mk.injEq ..).mp h
    exact hlt
  | case3 s answer mid hne hr =>
    obtain ⟨rfl, _, rfl⟩ := (Reply.mk.injEq ..).mp h
    exact absurd rfl (hne t)

theorem rest_length_lt_of_iterate {s s' : Session} {t : Token} {reported : List Token}
    (h : s.iterate = ⟨some (.ok t), reported, s'⟩) : s'.rest.length < s.rest.length := by
  unfold iterate at h
  split at h
  · simp at h
  · dsimp only at h
    split at h
    · rename_i u hu
      obtain ⟨_, _, rfl⟩ := (Reply.mk.injEq ..).mp h
      exact rest_length_lt_of_next (Reply.ext hu rfl rfl)
    · simp at h
    · simp at h

/-- Iterates to the end. -/
def drain (s : Session) : Reply Stream :=
  match h : s.iterate with
  | ⟨some (.ok t), reported, s'⟩ =>
    have := rest_length_lt_of_iterate h
    let r := s'.drain
    ⟨r.answer.cons t, reported ++ r.reported, r.session⟩
  | ⟨some (.error e), reported, s'⟩ => ⟨⟨[], some e⟩, reported, s'⟩
  | ⟨none, reported, s'⟩ => ⟨⟨[], none⟩, reported, s'⟩
termination_by s.rest.length

theorem rest_length_lt_of_nextRaw {s s' : Session} {t : Token} {reported : List Token}
    (h : s.nextRaw = ⟨.ok (some t), reported, s'⟩) : s'.rest.length < s.rest.length := by
  unfold nextRaw at h
  split at h
  · rename_i hr
    have hlt := rest_length_lt_of_read hr
    obtain ⟨_, _, rfl⟩ := (Reply.mk.injEq ..).mp h
    exact hlt
  · rename_i hne _
    obtain ⟨rfl, _, rfl⟩ := (Reply.mk.injEq ..).mp h
    exact absurd rfl (hne t)

/-- The tokens up to the end or the first failure, skipped ones included. -/
def drainRaw (s : Session) : Reply Stream :=
  match h : s.nextRaw with
  | ⟨.ok (some t), _, s'⟩ =>
    have := rest_length_lt_of_nextRaw h
    let r := s'.drainRaw
    ⟨r.answer.cons t, [], r.session⟩
  | ⟨.ok none, _, s'⟩ => ⟨⟨[], none⟩, [], s'⟩
  | ⟨.error e, _, s'⟩ => ⟨⟨[], some e⟩, [], s'⟩
termination_by s.rest.length

end Session
end ByteLexer
