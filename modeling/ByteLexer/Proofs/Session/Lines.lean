import ByteLexer.Proofs.Byte.Utf8
import ByteLexer.Proofs.Session.Lookahead
import ByteLexer.Proofs.Session.MoreInput
import ByteLexer.Proofs.Session.Relocation

/-! # Inputs line by line

    Where no token goes on across the end of a line, an input can be read line by line. What
    comes after an end of line is read like an input of its own, only further down.

    - **Counting lines.** The line of a position is the number of ends of lines before it.
    - **Iteration** gives the tokens that are not skipped, as repeated calls do.
    - **Streams in a row.** If an input is read to its end, and no token goes on with the byte
      that follows, the stream of the longer input begins with the one of the first.
    - **`BreaksLines`** tables. The end of a line is skipped, and the rest is read further down.
-/

namespace ByteLexer

variable {patterns : List Pattern} {l : Lexer} {m : Metrics} {r u y a b : List UInt8}

/-- The byte that ends a line. -/
def newline : UInt8 := 0x0a

/-! ## Counting lines -/

theorem ofUInt8_eq_newline_iff {c : UInt8} : Char.ofUInt8 c = '\n' ↔ c = newline := by
  show Char.ofUInt8 c = Char.ofUInt8 newline ↔ c = newline
  exact Byte.Utf8.ofUInt8_inj

/-- Only the end of a line leads to another line. -/
theorem Metrics.line_next (m : Metrics) (p : Position) (c : UInt8) :
    (m.next p (Char.ofUInt8 c)).line = if c = newline then p.line + 1 else p.line := by
  unfold next
  by_cases hc : c = newline
  · rw [if_pos (ofUInt8_eq_newline_iff.mpr hc), if_pos hc]
  · rw [if_neg (mt ofUInt8_eq_newline_iff.mp hc), if_neg hc]
    split
    · rfl
    · split
      · rfl
      · rfl

theorem Metrics.line_foldl_next (m : Metrics) (p : Position) (bytes : List UInt8) :
    ((latin1 bytes).foldl m.next p).line = p.line + bytes.count newline := by
  induction bytes generalizing p with
  | nil => rfl
  | cons c bytes ih =>
    show ((latin1 bytes).foldl m.next (m.next p (Char.ofUInt8 c))).line = _
    rw [ih, m.line_next, List.count_cons]
    by_cases hc : c = newline
    · rw [if_pos hc, if_pos (beq_iff_eq.mpr hc)]
      omega
    · rw [if_neg hc, if_neg (mt beq_iff_eq.mp hc)]
      rfl

/-- The line where an input ends is the number of ends of lines in it. -/
theorem Metrics.line_stop_spanOf (m : Metrics) (bytes : List UInt8) :
    (m.spanOf bytes).stop.line = bytes.count newline := by
  rw [spanOf, Span.stop_ofText, m.line_foldl_next]
  exact Nat.zero_add _

/-! ## Separation -/

/-- The longest viable part of some bytes stays the same if the patterns cannot go on with what
    comes after them. -/
theorem LongestViable.append_of_separated (h : LongestViable patterns r u)
    (hsep : ∀ c, y.head? = some c → ¬∃ p ∈ patterns, p.automaton.Viable (u ++ [c])) :
    LongestViable patterns (r ++ y) u := by
  by_cases hur : u = r
  · rw [← hur]
    refine .of_stuck (List.prefix_append u y) h.viable fun c hc => hsep c ?_
    obtain ⟨more, rfl⟩ := (List.prefix_append_right_inj u).mp hc
    rfl
  · exact h.append hur y

namespace Session

variable {s s' e : Session} {x : Stream}

/-! ## Iteration -/

/-- Until there has been a failure, to iterate to the end is to ask for tokens repeatedly. -/
theorem drained_drain (hrest : AtRest s) (hfailed : s.failed = false) :
    ∃ e, Drained Session.next s s.drain.answer e := by
  fun_induction drain s with
  | case1 s t reported s' hiter hlt r ih =>
    rcases hnext : s.next with ⟨f | _ | u, reported', mid⟩
    · simp [iterate, hnext, hfailed] at hiter
    · simp [iterate, hnext, hfailed] at hiter
    · obtain ⟨rfl, _, rfl⟩ : u = t ∧ reported' = reported ∧ mid = s' := by
        simpa [iterate, hnext, hfailed] using hiter
      have hkept := hrest.kept_next
      rw [hnext] at hkept
      have hmid : mid.failed = false := hkept.failed.trans hfailed
      obtain ⟨e, he⟩ := ih (hrest.of_kept hkept) hmid
      exact ⟨e, .token hnext he⟩
  | case2 s f reported s' hiter =>
    rcases hnext : s.next with ⟨g | _ | u, reported', mid⟩
    · obtain ⟨rfl, _⟩ : g = f ∧ _ := by
        simpa [iterate, hnext, hfailed] using hiter
      exact ⟨mid, .failed hnext⟩
    · simp [iterate, hnext, hfailed] at hiter
    · simp [iterate, hnext, hfailed] at hiter
  | case3 s reported s' hiter =>
    rcases hnext : s.next with ⟨g | _ | u, reported', mid⟩
    · simp [iterate, hnext, hfailed] at hiter
    · exact ⟨mid, .done hnext⟩
    · simp [iterate, hnext, hfailed] at hiter

/-- Iteration over an input gives its tokens, but for those to skip. -/
theorem drain_ofInput (h : ValidTable patterns) (m : Metrics) (input : List UInt8) :
    (ofInput (Lexer.ofPatterns patterns) m input).drain.answer =
      (ofInput (Lexer.ofPatterns patterns) m input).drainRaw.answer.unskipped := by
  obtain ⟨_, hiterated⟩ := drained_drain (atRest_ofInput (Lexer.ofPatterns patterns) m input) rfl
  obtain ⟨_, hunskipped, _⟩ :=
    (drained_drainRaw _).next h (consistent_ofInput _ m input) (SamePlace.refl _)
  exact (hiterated.unique hunskipped).1

/-! ## Streams in a row -/

/-- The tokens of two streams, one stream after the other, and how the second one ends. -/
def Stream.append (x z : Stream) : Stream :=
  ⟨x.tokens ++ z.tokens, z.failure⟩

theorem Stream.unskipped_append (x z : Stream) :
    (x.append z).unskipped = x.unskipped.append z.unskipped := by
  unfold unskipped append
  rw [List.filter_append]

/-- By induction on the calls: a session that is extended by bytes with which no token goes on
    passes the tokens of the first session, and what it gives after them follows. -/
theorem Drained.exists_extended (h : ValidTable patterns) (hx : Drained Session.nextRaw s x e)
    (hnone : x.failure = none) (hs : Consistent (Lexer.ofPatterns patterns) m s)
    (hs' : Consistent (Lexer.ofPatterns patterns) m s') (hext : Extended y s s')
    (hsep : ∀ c, y.head? = some c → ∀ u, TokenDue patterns u →
      ¬∃ p ∈ patterns, p.automaton.Viable (u ++ [c])) :
    ∃ mid, Consistent (Lexer.ofPatterns patterns) m mid ∧ Extended y e mid ∧
      ∀ z e', Drained Session.nextRaw mid z e' → Drained Session.nextRaw s' (x.append z) e' := by
  induction hx generalizing s' with
  | done hraw =>
    obtain ⟨_, rfl⟩ := rest_eq_nil_of_nextRaw hraw
    exact ⟨s', hs', hext, fun z e' hz => hz⟩
  | failed hraw => cases hnone
  | token hraw _ ih =>
    obtain ⟨hu, hdue⟩ := hs.longestViable_of_nextRaw h hraw
    have hu' := hu.append_of_separated fun c hc => hsep c hc _ hdue
    rw [← hext.rest] at hu'
    obtain ⟨next', hraw', hext'⟩ := hext.nextRaw_token h hs hs' hraw hu'
    have hnext := hs.nextRaw
    have hnext' := hs'.nextRaw
    rw [hraw] at hnext
    rw [hraw'] at hnext'
    obtain ⟨mid, hmid, hend, hrest⟩ := ih hnone hnext hnext' hext'
    exact ⟨mid, hmid, hend, fun z e' hz => .token hraw' (hrest z e' hz)⟩

/-- Where an input has been read without a failure, the session is at its end. -/
theorem Drained.at_end (hx : Drained Session.nextRaw (ofInput l m a) x e)
    (hnone : x.failure = none) :
    e.rest = [] ∧ e.offset = a.length ∧ e.position = (m.spanOf a).stop := by
  have hkeep : ∀ u : Session, Placed l m u ∧ u.input = a →
      Placed l m u.nextRaw.session ∧ u.nextRaw.session.input = a := fun u hu =>
    ⟨hu.1.nextRaw.session, hu.1.nextRaw.input_eq.trans hu.2⟩
  obtain ⟨u, _, ⟨hu, rfl⟩, hlast⟩ := hx.exists_last hkeep ⟨placed_ofInput l m a, rfl⟩
  rcases hlast with ⟨_, hraw⟩ | ⟨f, hsome, _⟩
  · obtain ⟨hnil, rfl⟩ := rest_eq_nil_of_nextRaw hraw
    refine ⟨hnil, Nat.le_antisymm hu.offset_le ?_, hu.position_of_rest_eq_nil hnil⟩
    rw [← List.drop_eq_nil_iff, ← hu.rest]
    exact hnil
  · rw [hnone] at hsome
    cases hsome

end Session

/-! ## Line breaks -/

/-- A table breaks lines if the end of a line is a token to skip, and no token goes on with it or
    after it. -/
structure BreaksLines (patterns : List Pattern) : Prop where
  skipped : ∃ i, FirstMatch patterns [newline] i ∧
    (Lexer.ofPatterns patterns).kind? i = some skipKind
  separates : ∀ u, TokenDue patterns u → ¬∃ p ∈ patterns, p.automaton.Viable (u ++ [newline])
  alone : ∀ c, ¬∃ p ∈ patterns, p.automaton.Viable [newline, c]

namespace Session

variable {s s' e : Session} {x : Stream}

/-- An end of line is passed as a token to skip. After it begins the next line. -/
theorem Consistent.nextRaw_newline (h : ValidTable patterns) (hbreaks : BreaksLines patterns)
    (hs : Consistent (Lexer.ofPatterns patterns) m s) (hrest : s.rest = newline :: b) :
    ∃ t mid, s.nextRaw = ⟨.ok (some t), [], mid⟩ ∧ t.kind = skipKind ∧ mid.rest = b ∧
      mid.offset = s.offset + 1 ∧ mid.position = ⟨s.position.line + 1, 0⟩ := by
  obtain ⟨j, hj, hskip⟩ := hbreaks.skipped
  have hdue : TokenDue patterns [newline] :=
    ⟨List.cons_ne_nil _ _, exists_matchedAt_iff.mp ⟨j, hj.1⟩⟩
  have hu : LongestViable patterns s.rest [newline] := by
    rw [hrest]
    exact .of_stuck ⟨b, rfl⟩ hdue.viable fun c _ => hbreaks.alone c
  obtain ⟨i, hi, hread⟩ := hs.read_of_tokenDue h hu hdue
  obtain ⟨span, hspan⟩ : ∃ span, s.measure? [newline] = some span :=
    measure?_eq_some fun htab => absurd htab (by decide)
  rw [hspan] at hread
  refine ⟨_, _, nextRaw_of_read_token hread, ?_, ?_, rfl, ?_⟩
  · show (s.lexer.kind? i).getD "" = skipKind
    rw [hs.lexer, hi.unique hj, hskip]
    rfl
  · show s.rest.drop 1 = b
    rw [hrest]
    rfl
  · show span.stop = _
    rw [eq_ofText_of_measure? hspan]
    rfl

/-- Let a table break lines, and let some bytes be read to their end without a failure. If an end
    of line and other bytes follow, iteration gives the tokens of the first bytes and then what it
    gives for the other bytes alone, as many bytes and lines further down. -/
theorem drain_append_newline (h : ValidTable patterns) (hbreaks : BreaksLines patterns)
    (m : Metrics) (b : List UInt8)
    (ha : (ofInput (Lexer.ofPatterns patterns) m a).drain.answer.failure = none) :
    (ofInput (Lexer.ofPatterns patterns) m (a ++ newline :: b)).drain.answer =
      (ofInput (Lexer.ofPatterns patterns) m a).drain.answer.append
        ((ofInput (Lexer.ofPatterns patterns) m b).drain.answer.relocate (a.length + 1)
          (a.count newline + 1)) := by
  rw [drain_ofInput h] at ha ⊢
  rw [drain_ofInput h, drain_ofInput h]
  have hx := (ofInput (Lexer.ofPatterns patterns) m a).drained_drainRaw
  have hz := (ofInput (Lexer.ofPatterns patterns) m b).drained_drainRaw
  obtain ⟨hnil, hoffset, hposition⟩ := hx.at_end ha
  -- the tokens of the first bytes
  obtain ⟨mid, hmid, hend, hwhole⟩ := hx.exists_extended h ha (consistent_ofInput _ m a)
    (consistent_ofInput _ m _) (extended_ofInput _ m a (newline :: b))
    fun c hc => by
      obtain rfl := Option.some.inj hc
      exact hbreaks.separates
  -- the end of the line
  have hmidRest : mid.rest = newline :: b := by
    rw [hend.rest, hnil]
    rfl
  obtain ⟨t, next, hraw, hkind, hrest, hoffset', hposition'⟩ := hmid.nextRaw_newline h hbreaks hmidRest
  -- the other bytes
  have hnext := hmid.nextRaw
  rw [hraw] at hnext
  have hreloc : Relocated (a.length + 1) (a.count newline + 1)
      (ofInput (Lexer.ofPatterns patterns) m b) next := by
    refine ⟨hnext.metrics, hrest, ?_, ?_⟩
    · rw [hoffset', hend.offset, hoffset]
      exact (Nat.zero_add _).symm
    · rw [hposition', hend.position, hposition, m.line_stop_spanOf]
      show _ = Position.mk (0 + (a.count newline + 1)) 0
      rw [Nat.zero_add]
  obtain ⟨e', hz'⟩ := hz.relocate h (consistent_ofInput _ m b) hnext hreloc
  have hall := hwhole _ _ (.token hraw hz')
  rw [((drained_drainRaw _).unique hall).1, Stream.unskipped_append,
    Stream.unskipped_cons_of_skip hkind, Stream.unskipped_relocate]

end Session

end ByteLexer
