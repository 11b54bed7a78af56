import ByteLexer.Proofs.Session.Streams

/-! # Sessions further down

    A session that has the same bytes left as another one, but further down in a longer input,
    answers the same, further down. Lines are only counted, so what a byte adds to a position
    does not depend on the line.

    - **Further down.** Positions, spans, failures, tokens and streams, by a number of lines and
      of bytes.
    - **`Relocated`** sessions have the same bytes left further down. What they read is what the
      other session reads, further down.
    - **Streams.** So is what they are drained of, by induction on the calls.
-/

namespace ByteLexer

variable {patterns : List Pattern} {m : Metrics} {k n : Nat}

/-! ## Further down -/

/-- The position some lines further down. -/
def Position.down (n : Nat) (p : Position) : Position :=
  { p with line := p.line + n }

/-- The span some lines further down. -/
def Span.down (n : Nat) (s : Span) : Span :=
  ⟨s.start.down n, s.last.down n, s.stop.down n⟩

/-- The failure some lines further down. -/
def Failure.down (n : Nat) : Failure → Failure
  | .located e => .located { e with span := e.span.down n }
  | .unmeasurable => .unmeasurable

/-- The token some bytes and lines further down. -/
def Token.relocate (k n : Nat) (t : Token) : Token :=
  { t with offset := t.offset + k, span := t.span.down n }

/-- A byte moves on from further down as it does from the start. -/
theorem Metrics.next_down (m : Metrics) (n : Nat) (p : Position) (c : Char) :
    m.next (p.down n) c = (m.next p c).down n := by
  unfold next
  by_cases hline : c = '\n'
  · rw [if_pos hline, if_pos hline]
    show Position.mk (p.line + n + 1) 0 = Position.mk (p.line + 1 + n) 0
    rw [Nat.add_right_comm]
  · rw [if_neg hline, if_neg hline]
    by_cases htab : c = '\t'
    · rw [if_pos htab, if_pos htab]
      rfl
    · rw [if_neg htab, if_neg htab]
      by_cases hcontrol : isControl c = true
      · rw [if_pos hcontrol, if_pos hcontrol]
      · rw [if_neg hcontrol, if_neg hcontrol]
        rfl

theorem Span.push_down (m : Metrics) (n : Nat) (s : Span) (c : Char) :
    push m (s.down n) c = (push m s c).down n := by
  unfold push down
  rw [Metrics.next_down]

/-- So does a text. -/
theorem Span.ofText_down (m : Metrics) (n : Nat) (p : Position) (text : List Char) :
    ofText m (p.down n) text = (ofText m p text).down n := by
  show text.foldl (push m) ((emptyAt p).down n) = (text.foldl (push m) (emptyAt p)).down n
  exact List.foldl_hom (down n) fun s c => push_down m n s c

namespace Session

variable {s s' e : Session} {x : Stream}

/-- The outcome some bytes and lines further down. -/
def Outcome.relocate (k n : Nat) : Outcome → Outcome
  | .ok (some t) => .ok (some (t.relocate k n))
  | .ok none => .ok none
  | .error f => .error (f.down n)

/-- The stream some bytes and lines further down. -/
def Stream.relocate (k n : Nat) (x : Stream) : Stream :=
  ⟨x.tokens.map (Token.relocate k n), x.failure.map (Failure.down n)⟩

/-- The kinds stay the same, so it does not matter when tokens are left out. -/
theorem Stream.unskipped_relocate (k n : Nat) (x : Stream) :
    (x.relocate k n).unskipped = x.unskipped.relocate k n := by
  unfold unskipped relocate
  rw [List.filter_map]
  rfl

/-! ## Relocated sessions -/

/-- The second session has the same bytes left as the first one, further down. -/
structure Relocated (k n : Nat) (s s' : Session) : Prop where
  metrics : s'.metrics = s.metrics
  rest : s'.rest = s.rest
  offset : s'.offset = s.offset + k
  position : s'.position = s.position.down n

namespace Relocated

theorem restarted (h : Relocated k n s s') : Relocated k n s.restarted s'.restarted :=
  ⟨h.metrics, h.rest, h.offset, h.position⟩

theorem setCurrent (h : Relocated k n s s') (c c' : Option Token) :
    Relocated k n { s with current := c } { s' with current := c' } :=
  ⟨h.metrics, h.rest, h.offset, h.position⟩

theorem measure? (h : Relocated k n s s') (bytes : List UInt8) :
    s'.measure? bytes = (s.measure? bytes).map (Span.down n) := by
  unfold Session.measure?
  rw [h.metrics, h.position, Span.ofText_down]
  by_cases hm : s.metrics.Measures (latin1 bytes)
  · rw [if_pos hm, if_pos hm]
    rfl
  · rw [if_neg hm, if_neg hm]
    rfl

theorem failure (h : Relocated k n s s') (e : SessionError) (bytes : List UInt8) :
    s'.failure e bytes = (s.failure e bytes).down n := by
  unfold Session.failure
  rw [h.measure?]
  rcases s.measure? bytes with _ | span
  · rfl
  · rfl

theorem byteAfter (h : Relocated k n s s') (u : List UInt8) : s'.byteAfter u = s.byteAfter u := by
  unfold Session.byteAfter
  rw [h.rest]

theorem pass (h : Relocated k n s s') (t : Token) (rest : List UInt8) :
    Relocated k n (s.pass t rest) (s'.pass (t.relocate k n) rest) := by
  refine ⟨h.metrics, rfl, ?_, rfl⟩
  show s'.offset + t.lexeme.length = s.offset + t.lexeme.length + k
  rw [h.offset, Nat.add_right_comm]

/-- What is read is the same further down. -/
theorem read (h : ValidTable patterns) (hreloc : Relocated k n s s')
    (hs : Consistent (Lexer.ofPatterns patterns) m s)
    (hs' : Consistent (Lexer.ofPatterns patterns) m s') :
    s'.read.1 = Outcome.relocate k n s.read.1 ∧ Relocated k n s.read.2 s'.read.2 := by
  by_cases hnil : s.rest = []
  · rw [read_of_rest_eq_nil hnil, read_of_rest_eq_nil (hreloc.rest.trans hnil)]
    exact ⟨rfl, hreloc⟩
  · obtain ⟨u, hu⟩ := h.exists_longestViable s.rest
    have hu' : LongestViable patterns s'.rest u := by
      rw [hreloc.rest]
      exact hu
    by_cases hdue : TokenDue patterns u
    · obtain ⟨i, hi, hread⟩ := hs.read_of_tokenDue h hu hdue
      obtain ⟨j, hj, hread'⟩ := hs'.read_of_tokenDue h hu' hdue
      have htoken : ∀ span, s'.token i u (span.down n) = (s.token i u span).relocate k n := by
        intro span
        unfold Session.token
        rw [hs.lexer, hs'.lexer, hreloc.offset]
        rfl
      rw [hread, hread', hreloc.measure?, hj.unique hi, hreloc.rest]
      rcases s.measure? u with _ | span
      · exact ⟨rfl, hreloc.restarted⟩
      · simp only [Option.map_some, htoken]
        exact ⟨rfl, hreloc.restarted.pass _ _⟩
    · have hnil' : s'.rest ≠ [] := by
        rw [hreloc.rest]
        exact hnil
      rw [hs.read_of_not_tokenDue h hu hnil hdue, hs'.read_of_not_tokenDue h hu' hnil' hdue,
        hreloc.byteAfter, hreloc.failure]
      exact ⟨rfl, hreloc.restarted⟩

theorem nextRaw (h : ValidTable patterns) (hreloc : Relocated k n s s')
    (hs : Consistent (Lexer.ofPatterns patterns) m s)
    (hs' : Consistent (Lexer.ofPatterns patterns) m s') :
    s'.nextRaw.answer = Outcome.relocate k n s.nextRaw.answer ∧
      Relocated k n s.nextRaw.session s'.nextRaw.session := by
  obtain ⟨hanswer, hafter⟩ := hreloc.read h hs hs'
  obtain ⟨current, hsession⟩ := s.exists_session_nextRaw
  obtain ⟨current', hsession'⟩ := s'.exists_session_nextRaw
  rw [answer_nextRaw, answer_nextRaw, hsession, hsession']
  exact ⟨hanswer, hafter.setCurrent current current'⟩

end Relocated

/-! ## Streams -/

/-- By induction on the calls: what a relocated session is drained of is the same further down. -/
theorem Drained.relocate (h : ValidTable patterns) (hx : Drained Session.nextRaw s x e)
    (hs : Consistent (Lexer.ofPatterns patterns) m s)
    (hs' : Consistent (Lexer.ofPatterns patterns) m s') (hreloc : Relocated k n s s') :
    ∃ e', Drained Session.nextRaw s' (x.relocate k n) e' := by
  induction hx generalizing s' with
  | done hraw =>
    obtain ⟨hanswer, _⟩ := hreloc.nextRaw h hs hs'
    rw [hraw] at hanswer
    exact ⟨_, .done (Reply.ext hanswer rfl rfl)⟩
  | failed hraw =>
    obtain ⟨hanswer, _⟩ := hreloc.nextRaw h hs hs'
    rw [hraw] at hanswer
    exact ⟨_, .failed (Reply.ext hanswer rfl rfl)⟩
  | token hraw _ ih =>
    obtain ⟨hanswer, hafter⟩ := hreloc.nextRaw h hs hs'
    have hmid := hs.nextRaw
    rw [hraw] at hanswer hafter hmid
    obtain ⟨e', hx'⟩ := ih hmid hs'.nextRaw hafter
    exact ⟨e', .token (Reply.ext hanswer rfl rfl) hx'⟩

end Session

end ByteLexer
