import ByteLexer.Proofs.Lexer.Validation
import ByteLexer.Proofs.Session.LongestMatch

/-! # Streams of tokens

    Tokens can be asked for with or without those to skip. Either way there are only
    finitely many before the end of the input or the first failure, and those with
    nothing left out, less the ones of the kind to skip, are the others.

    - **`Drained`** says what a call gives when it is repeated until it gives no token.
    - **The kind to skip.** A token is skipped because of its kind.
    - **Leaving out.** What `next` gives, from what `nextRaw` gives.
-/

namespace ByteLexer

variable {patterns : List Pattern} {m : Metrics}

/-! ## Repeated calls -/

namespace Session

variable {call : Session → Reply Outcome} {s s' e e' : Session} {x y : Stream} {t : Token}
  {f : Failure}

/-- What a call gives when it is repeated until it gives no token, and the session afterwards. -/
inductive Drained (call : Session → Reply Outcome) : Session → Stream → Session → Prop
  | done {s s' : Session} {reported : List Token} : call s = ⟨.ok none, reported, s'⟩ →
      Drained call s ⟨[], none⟩ s'
  | failed {s s' : Session} {reported : List Token} {f : Failure} :
      call s = ⟨.error f, reported, s'⟩ → Drained call s ⟨[], some f⟩ s'
  | token {s s' e : Session} {reported : List Token} {t : Token} {x : Stream} :
      call s = ⟨.ok (some t), reported, s'⟩ → Drained call s' x e → Drained call s (x.cons t) e

/-- There is only one such stream. -/
theorem Drained.unique (hx : Drained call s x e) (hy : Drained call s y e') : x = y ∧ e = e' := by
  induction hx generalizing y with
  | done h =>
    cases hy with
    | done h' =>
      cases h.symm.trans h'
      exact ⟨rfl, rfl⟩
    | failed h' => cases h.symm.trans h'
    | token h' => cases h.symm.trans h'
  | failed h =>
    cases hy with
    | done h' => cases h.symm.trans h'
    | failed h' =>
      cases h.symm.trans h'
      exact ⟨rfl, rfl⟩
    | token h' => cases h.symm.trans h'
  | token h _ ih =>
    cases hy with
    | done h' => cases h.symm.trans h'
    | failed h' => cases h.symm.trans h'
    | token h' hy =>
      cases h.symm.trans h'
      obtain ⟨rfl, rfl⟩ := ih hy
      exact ⟨rfl, rfl⟩

/-- A session whose first call replies the same, but for what it reports, gives the same. -/
theorem Drained.of_call {reported : List Token} (h : Drained call s x e)
    (hcall : call s' = { call s with reported }) : Drained call s' x e := by
  cases h with
  | done h =>
    rw [h] at hcall
    exact .done hcall
  | failed h =>
    rw [h] at hcall
    exact .failed hcall
  | token h hrest =>
    rw [h] at hcall
    exact .token hcall hrest

/-- The last call is made in a session that has what every call keeps. -/
theorem Drained.exists_last {P : Session → Prop} (hkeep : ∀ u, P u → P (call u).session)
    (h : Drained call s x e) (hs : P s) :
    ∃ u reported, P u ∧ ((x.failure = none ∧ call u = ⟨.ok none, reported, e⟩) ∨
      ∃ f, x.failure = some f ∧ call u = ⟨.error f, reported, e⟩) := by
  induction h with
  | done h => exact ⟨_, _, hs, .inl ⟨rfl, h⟩⟩
  | failed h => exact ⟨_, _, hs, .inr ⟨_, rfl, h⟩⟩
  | token h _ ih =>
    have hmid := hkeep _ hs
    rw [h] at hmid
    exact ih hmid

/-- Whatever holds of each token that a call gives, in a session that has what every call keeps,
    holds of all of them. -/
theorem Drained.forall_mem {P : Session → Prop} {R : Token → Prop}
    (hkeep : ∀ u, P u → P (call u).session)
    (hgive : ∀ u t, P u → (call u).answer = .ok (some t) → R t) (h : Drained call s x e)
    (hs : P s) : ∀ t ∈ x.tokens, R t := by
  induction h with
  | done _ => exact List.forall_mem_nil _
  | failed _ => exact List.forall_mem_nil _
  | token h _ ih =>
    have hmid := hkeep _ hs
    rw [h] at hmid
    exact List.forall_mem_cons.mpr ⟨hgive _ _ hs (congrArg Reply.answer h), ih hmid⟩

/-- Asking for all tokens drains a session. -/
theorem drained_drainRaw (s : Session) :
    Drained nextRaw s s.drainRaw.answer s.drainRaw.session := by
  fun_induction drainRaw s with
  | case1 s t reported s' hraw hlt r ih => exact .token hraw ih
  | case2 s reported s' hraw => exact .done hraw
  | case3 s f reported s' hraw => exact .failed hraw

/-- So what repeated calls for all tokens give is known. -/
theorem drained_nextRaw_iff : (∃ e, Drained nextRaw s x e) ↔ x = s.drainRaw.answer := by
  refine ⟨fun h => ?_, fun h => ?_⟩
  · obtain ⟨e, he⟩ := h
    exact (he.unique s.drained_drainRaw).1
  · rw [h]
    exact ⟨_, s.drained_drainRaw⟩

end Session

/-! ## The kind to skip -/

/-- The tokens of other kinds than the one to skip, and the failure after them. -/
def Session.Stream.unskipped (x : Session.Stream) : Session.Stream :=
  { x with tokens := x.tokens.filter fun t => t.kind ≠ skipKind }

/-- In a compiled table, tokens are skipped exactly for their kind. -/
theorem ValidTable.isSkip_iff (h : ValidTable patterns) {i : Nat} :
    (Lexer.ofPatterns patterns).isSkip i = true ↔
      ((Lexer.ofPatterns patterns).kind? i).getD "" = skipKind := by
  rw [h.isSkip_eq_true_iff]
  rcases (Lexer.ofPatterns patterns).kind? i with _ | kind
  · -- where there is no kind, there is no name either
    exact iff_of_false nofun (by decide)
  · exact Option.some_inj

/-! ## Leaving out -/

namespace Session

variable {s s' e : Session} {x : Stream} {t : Token}

theorem Stream.unskipped_cons_of_skip (h : t.kind = skipKind) (x : Stream) :
    (x.cons t).unskipped = x.unskipped := by
  unfold unskipped cons
  rw [List.filter_cons_of_neg (by simpa using h)]

theorem Stream.unskipped_cons (h : t.kind ≠ skipKind) (x : Stream) :
    (x.cons t).unskipped = x.unskipped.cons t := by
  unfold unskipped cons
  rw [List.filter_cons_of_pos (by simpa using h)]

/-- A token that has been read is skipped for its kind. -/
theorem isSkip_of_read (h : ValidTable patterns)
    (hs : Consistent (Lexer.ofPatterns patterns) m s) (hread : s.read = (.ok (some t), s')) :
    s.lexer.isSkip t.index = true ↔ t.kind = skipKind := by
  obtain ⟨ht, _⟩ := token_of_read hread
  have hkind : t.kind = (s.lexer.kind? t.index).getD "" := by rw [ht]; rfl
  rw [hkind, hs.lexer]
  exact h.isSkip_iff

/-- By induction on the calls of `nextRaw`, from any other session at the same place: a token to
    skip is passed inside a call of `next`, any other one is its answer. -/
theorem Drained.next (h : ValidTable patterns) (hx : Drained nextRaw s x e)
    (hs : Consistent (Lexer.ofPatterns patterns) m s) (hsame : SamePlace s s') :
    ∃ e', Drained Session.next s' x.unskipped e' ∧ SamePlace e e' := by
  induction hx generalizing s' with
  | done hraw =>
    obtain ⟨hnil, rfl⟩ := rest_eq_nil_of_nextRaw hraw
    exact ⟨s', .done (next_of_rest_eq_nil (hsame.rest.trans hnil)), hsame⟩
  | failed hraw =>
    obtain ⟨_, hread', hafter⟩ := hsame.exists_read (read_of_nextRaw_error hraw)
    exact ⟨_, .failed (next_of_read_error hread'), hafter⟩
  | @token s _ e _ t x hraw _ ih =>
    obtain ⟨mid, hread, rfl⟩ := read_of_nextRaw_token hraw
    obtain ⟨mid', hread', hafter⟩ := hsame.exists_read hread
    have hskip := isSkip_of_read h hs hread
    rw [← hsame.lexer] at hskip
    have hmid := hs.nextRaw
    rw [hraw] at hmid
    by_cases hkind : t.kind = skipKind
    · -- the call that passes the token goes on as one at the session after it
      obtain ⟨e', hx', he'⟩ := ih hmid (hafter.setCurrent (some t) mid'.current)
      rw [Stream.unskipped_cons_of_skip hkind]
      exact ⟨e', hx'.of_call (next_of_read_skipped hread' (hskip.mpr hkind)), he'⟩
    · obtain ⟨e', hx', he'⟩ := ih hmid (hafter.setCurrent (some t) (some t))
      have hkeep : s'.lexer.isSkip t.index = false := by
        rw [Bool.eq_false_iff]
        exact fun hs => hkind (hskip.mp hs)
      rw [Stream.unskipped_cons hkind]
      exact ⟨e', .token (next_of_read_token hread' hkeep) hx', he'⟩

/-- In any session that a history of calls leads to, repeated calls for all tokens and repeated
    calls for those not to skip both end. What the latter give is what the former give, less the
    tokens of the kind to skip: the other tokens are the same, in the same order, and so is the
    failure after them, if there is one. -/
theorem drained_next_iff_unskipped {l : Lexer} (h : Lexer.compile patterns = .ok l) (m : Metrics)
    (input : List UInt8) (history : List Call) :
    let s := (ofInput l m input).after history
    ∃ x : Stream, (∀ y, (∃ e, Drained nextRaw s y e) ↔ y = x) ∧
      ∀ y, (∃ e, Drained Session.next s y e) ↔ y = x.unskipped := by
  intro s
  obtain ⟨htable, rfl⟩ := Lexer.compile_eq_ok_iff.mp h
  have hs : Consistent (Lexer.ofPatterns patterns) m s := consistent_after _ _ _ _
  obtain ⟨e', hnext, _⟩ := s.drained_drainRaw.next htable hs (SamePlace.refl s)
  refine ⟨s.drainRaw.answer, fun y => drained_nextRaw_iff, fun y => ⟨fun hy => ?_, fun hy => ?_⟩⟩
  · obtain ⟨e, he⟩ := hy
    exact (he.unique hnext).1
  · rw [hy]
    exact ⟨e', hnext⟩

/-- The pattern to skip may recognize the empty word. Then a blank is a token to skip, and nothing
    else is left of it. -/
theorem drained_next_iff_unskipped_blank :
    let patterns : List Pattern := [⟨skipKind, Regex.star (Regex.word [32])⟩]
    let s := ofInput (Lexer.ofPatterns patterns) {} [32]
    Lexer.compile patterns = .ok (Lexer.ofPatterns patterns) ∧
    (Regex.star (Regex.word [32])).recognizes [] = true ∧
    (∃ t e, Drained nextRaw s ⟨[t], none⟩ e) ∧ ∃ e, Drained Session.next s ⟨[], none⟩ e := by
  intro patterns s
  have htable : ValidTable patterns := ⟨List.cons_ne_nil _ _, by decide, by decide⟩
  have hcompile : Lexer.compile patterns = .ok (Lexer.ofPatterns patterns) :=
    Lexer.compile_eq_ok_iff.mpr ⟨htable, rfl⟩
  have hempty : (Regex.star (Regex.word [32])).recognizes [] = true := by
    rw [Automaton.recognizes_iff_accepts, Regex.accepts_star_iff]
    exact .nil
  have hblank : (Regex.star (Regex.word [32])).recognizes [32] = true := by
    rw [Automaton.recognizes_iff_accepts, Regex.accepts_star_iff]
    exact .append (Regex.accepts_word_iff.mpr rfl) .nil
  have hdue : TokenDue patterns s.rest :=
    ⟨List.cons_ne_nil _ _, _, List.mem_cons_self, hblank⟩
  have hs : Consistent (Lexer.ofPatterns patterns) {} s := consistent_ofInput _ _ _
  obtain ⟨i, hfirst, hread⟩ := hs.read_of_tokenDue htable (LongestViable.refl hdue.viable) hdue
  -- all bytes can be measured
  have hmeasured : ∃ span, s.measure? s.rest = some span := measure?_eq_some (by decide)
  obtain ⟨span, hspan⟩ := hmeasured
  rw [hspan] at hread
  have hraw := nextRaw_of_read_token hread
  have hdrained : Drained nextRaw s ⟨[s.token i s.rest span], none⟩ _ :=
    .token hraw (.done (nextRaw_of_rest_eq_nil rfl))
  obtain ⟨x, hall, hkept⟩ := drained_next_iff_unskipped hcompile {} [32] []
  have hx := (hall _).mp ⟨_, hdrained⟩
  have hkind : (s.token i s.rest span).kind = skipKind := by
    obtain ⟨p, hp, _⟩ := hfirst.1
    show (patterns.map Pattern.kind)[i]?.getD "" = skipKind
    rw [List.getElem?_map, hp, List.mem_singleton.mp (List.mem_of_getElem? hp)]
    rfl
  refine ⟨hcompile, hempty, ⟨_, _, hdrained⟩, (hkept _).mpr ?_⟩
  rw [← hx]
  exact (Stream.unskipped_cons_of_skip hkind ⟨[], none⟩).symm

end Session

end ByteLexer
