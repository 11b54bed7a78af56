import ByteLexer.Proofs.Automaton.Runs

/-! # Runs and recognition

    A run may be fed bytes and restarted in any order, and some of the bytes may be refused. It is
    then where the bytes that it has followed since the last restart lead to.

    - **Requests.** What a run may be asked for, what it answers, and which bytes it has followed.
    - **Tracking.** The states that the followed bytes lead to are those that silent edges lead to
      from the state of the run. Every request keeps this, in any automaton.
    - **Recognition.** So a run that accepts has followed a word that is recognized, and in a
      deterministic automaton the converse holds.
-/

namespace ByteLexer.Run

open Std (TransOrd LawfulEqOrd)

variable {Q : Type} [Ord Q] [TransOrd Q]

/-! ## Requests -/

/-- What a run may be asked for. -/
inductive Request where
  | feed (b : UInt8)
  | restart

/-- A request that was served, with its answer if there is one. -/
inductive Event where
  | fed (b : UInt8) (answer : Except Nondeterminism Bool)
  | restarted

/-- Serves one request: what happened, and the run afterwards. -/
def serve (r : Run Q) : Request → Event × Run Q
  | .feed b => (.fed b (r.feed b).1, (r.feed b).2)
  | .restart => (.restarted, r.restart)

/-- Serves some requests one after the other. -/
def serveAll (r : Run Q) : List Request → List Event × Run Q
  | [] => ([], r)
  | x :: xs => ((r.serve x).1 :: ((r.serve x).2.serveAll xs).1, ((r.serve x).2.serveAll xs).2)

/-- The bytes followed since the last restart, if `u` were followed before the event. -/
def Event.record (u : List UInt8) : Event → List UInt8
  | .fed b (.ok true) => u ++ [b]
  | .fed _ _ => u
  | .restarted => []

/-- The bytes followed since the last restart. -/
def followed (events : List Event) : List UInt8 :=
  events.foldl Event.record []

/-! ## Tracking -/

/-- The states that a word leads to are those that silent edges lead to from the state of a run. -/
def Tracks (r : Run Q) (u : List UInt8) : Prop :=
  ∀ q, r.automaton.Path r.automaton.initial u q ↔ r.automaton.Path r.state [] q

theorem tracks_restart (r : Run Q) : r.restart.Tracks [] :=
  fun _ => Iff.rfl

/-- How a byte is answered, and where the run is then. -/
theorem feed_cases (r : Run Q) (b : UInt8) :
    (∃ q, r.automaton.step r.state b = .ok (some q) ∧
      r.feed b = (.ok true, { r with state := q })) ∨
    (r.feed b = (.ok false, r)) ∨
    ∃ e, r.feed b = (.error e, r) := by
  unfold feed
  split
  case h_1 e _ => exact .inr (.inr ⟨e, rfl⟩)
  case h_2 => exact .inr (.inl rfl)
  case h_3 q hstep => exact .inl ⟨q, hstep, rfl⟩

/-- A byte that is not followed leaves the run where it is. -/
theorem feed_of_not_followed {r : Run Q} {b : UInt8} (h : (r.feed b).1 ≠ .ok true) :
    (r.feed b).2 = r := by
  rcases r.feed_cases b with ⟨q, _, hfeed⟩ | hfeed | ⟨e, hfeed⟩
  · rw [hfeed] at h
    exact absurd rfl h
  · rw [hfeed]
  · rw [hfeed]

variable [LawfulEqOrd Q] {r : Run Q} {u : List UInt8}

/-- A byte that is followed crosses the only edge that leads on, so nothing else is reached. -/
theorem Tracks.step {b : UInt8} {q : Q} (h : r.Tracks u)
    (hstep : r.automaton.step r.state b = .ok (some q)) :
    ({ r with state := q } : Run Q).Tracks (u ++ [b]) := by
  obtain ⟨hsilent, honly⟩ := Automaton.targets_of_step hstep
  intro t
  show r.automaton.Path r.automaton.initial (u ++ [b]) t ↔ r.automaton.Path q [] t
  constructor
  · intro hpath
    obtain ⟨p, hp, hb⟩ := hpath.cut
    -- the word led to the state of the run and nowhere else
    have hstate := (Automaton.path_nil_iff_of_silent_free hsilent).mp ((h p).mp hp)
    rw [hstate] at hb
    obtain ⟨s, hs, htail⟩ := (Automaton.path_cons_iff_of_silent_free hsilent).mp hb
    rw [(honly s).mp hs] at htail
    exact htail
  · intro htail
    have hword := (h r.state).mpr (.nil r.state)
    exact hword.append (.byte ((honly q).mpr rfl) htail)

/-- Every request keeps track of the word. -/
theorem Tracks.serve (h : r.Tracks u) (x : Request) :
    (r.serve x).2.Tracks ((r.serve x).1.record u) := by
  cases x with
  | restart => exact r.tracks_restart
  | feed b =>
    show (r.feed b).2.Tracks (Event.record u (.fed b (r.feed b).1))
    rcases r.feed_cases b with ⟨q, hstep, hfeed⟩ | hfeed | ⟨e, hfeed⟩
    · rw [hfeed]
      exact h.step hstep
    · rw [hfeed]
      exact h
    · rw [hfeed]
      exact h

/-- By induction on the requests, so do all of them. -/
theorem Tracks.serveAll (h : r.Tracks u) (xs : List Request) :
    (r.serveAll xs).2.Tracks ((r.serveAll xs).1.foldl Event.record u) := by
  induction xs generalizing r u with
  | nil => exact h
  | cons x xs ih => exact ih (h.serve x)

omit [LawfulEqOrd Q] in
theorem automaton_serve (r : Run Q) (x : Request) : (r.serve x).2.automaton = r.automaton := by
  cases x with
  | restart => rfl
  | feed b => exact r.automaton_feed b

omit [LawfulEqOrd Q] in
theorem automaton_serveAll (r : Run Q) (xs : List Request) :
    (r.serveAll xs).2.automaton = r.automaton := by
  induction xs generalizing r with
  | nil => rfl
  | cons x xs ih => exact (ih _).trans (r.automaton_serve x)

/-! ## Recognition -/

omit [LawfulEqOrd Q] in
/-- A run that accepts has followed a word that is accepted. -/
theorem Tracks.accepts_of_accepts (h : r.Tracks u) (hacc : r.accepts = true) :
    r.automaton.Accepts u :=
  ⟨r.state, (h r.state).mpr (.nil r.state), Automaton.isAccepting_iff.mp hacc⟩

omit [LawfulEqOrd Q] in
/-- In a deterministic automaton, a run accepts if the word that it has followed is accepted. -/
theorem Tracks.accepts_iff (h : r.Tracks u) (hdet : r.automaton.Deterministic) :
    r.accepts = true ↔ r.automaton.Accepts u := by
  constructor
  · exact h.accepts_of_accepts
  · intro haccepts
    obtain ⟨q, hq, hacc⟩ := haccepts
    rw [h q, hdet.path_nil_iff] at hq
    rw [hq] at hacc
    exact Automaton.isAccepting_iff.mpr hacc

/-- In a deterministic automaton, no request to feed a byte is answered by an error. -/
theorem answer_of_mem_serveAll (hdet : r.automaton.Deterministic) {xs : List Request} {b : UInt8}
    {answer : Except Nondeterminism Bool} (h : .fed b answer ∈ (r.serveAll xs).1) :
    ∃ moved, answer = .ok moved := by
  induction xs generalizing r with
  | nil => cases h
  | cons x xs ih =>
    rcases List.mem_cons.mp h with h | h
    · cases x with
      | restart => cases h
      | feed c =>
        obtain ⟨_, hanswer⟩ := Event.fed.inj h
        rw [hanswer]
        exact feed_ok hdet c
    · have hnext : (r.serve x).2.automaton.Deterministic := by
        rw [automaton_serve]
        exact hdet
      exact ih hnext h

/-- Let a run of any automaton serve some requests. The states that paths lead to which spell the
    bytes followed since the last restart are those of the closure of its state, so if it accepts,
    these bytes are recognized. A byte that is not followed leaves it where it is. If the automaton
    is deterministic, no byte is answered by an error, the run accepts exactly if the bytes that it
    has followed are recognized, and a word is recognized exactly if a run that is restarted and fed
    the word follows all its bytes and then accepts. -/
theorem serveAll_agrees (A : Automaton Q) (xs : List Request) :
    let events := ((ofAutomaton A).serveAll xs).1
    let run := ((ofAutomaton A).serveAll xs).2
    (∀ q, A.Path A.initial (followed events) q ↔ q ∈ A.closure {run.state}) ∧
    (run.accepts = true → A.recognizes (followed events) = true) ∧
    (∀ b, (run.feed b).1 ≠ .ok true → (run.feed b).2 = run) ∧
    (A.isDeterministic = true →
      (∀ b answer, .fed b answer ∈ events → ∃ moved, answer = .ok moved) ∧
      (run.accepts = true ↔ A.recognizes (followed events) = true) ∧
      ∀ w, A.recognizes w = true ↔
        (∀ x ∈ (run.restart.feedAll w).1, x = .ok true) ∧
          (run.restart.feedAll w).2.accepts = true) := by
  intro events run
  have hautomaton : run.automaton = A := automaton_serveAll (ofAutomaton A) xs
  have htracks : run.Tracks (followed events) := (tracks_restart (ofAutomaton A)).serveAll xs
  have hrecognizes : A.recognizes (followed events) = true ↔
      run.automaton.Accepts (followed events) := by
    rw [hautomaton]
    exact Automaton.recognizes_iff_accepts
  refine ⟨?_, ?_, ?_, ?_⟩
  · intro q
    have hq := htracks q
    rw [hautomaton] at hq
    rw [hq, Automaton.mem_closure]
    constructor
    · intro hpath
      exact ⟨run.state, OrdSet.mem_singleton.mpr rfl, hpath⟩
    · intro hex
      obtain ⟨p, hp, hpath⟩ := hex
      rw [OrdSet.mem_singleton.mp hp] at hpath
      exact hpath
  · rw [hrecognizes]
    exact htracks.accepts_of_accepts
  · exact fun b => feed_of_not_followed
  · intro hdet
    have hA : A.Deterministic := Automaton.deterministic_of_isDeterministic hdet
    refine ⟨?_, ?_, ?_⟩
    · exact fun b answer => answer_of_mem_serveAll (r := ofAutomaton A) hA
    · rw [hrecognizes]
      rw [← hautomaton] at hA
      exact htracks.accepts_iff hA
    · intro w
      -- whatever was served before, a restart is a fresh run
      have hrestart : run.restart = ofAutomaton A := by
        unfold restart ofAutomaton
        rw [hautomaton]
      rw [hrestart, feedAll_accepts_iff A hA w]
      exact Automaton.recognizes_iff_accepts

/-- A byte is followed, forgotten, followed again, and then another one is refused. -/
theorem serveAll_agrees_refused :
    let A : Automaton Nat := .ofParts 0 [] [⟨0, some 97, 1⟩] [1]
    let served := (ofAutomaton A).serveAll [.feed 97, .restart, .feed 97, .feed 98]
    A.isDeterministic = true ∧ .fed 98 (.ok false) ∈ served.1 ∧
      (served.2.feed 98).1 ≠ .ok true ∧ (served.2.feed 98).2 = served.2 ∧
      served.2.accepts = true ∧ followed served.1 = [97] ∧ A.recognizes [97] = true := by
  intro A served
  have hdet : A.isDeterministic = true := by decide
  have hrefused : (served.2.feed 98).1 ≠ .ok true := by decide
  have haccepts : served.2.accepts = true := by decide
  have hfollowed : followed served.1 = [97] := by decide
  have hlogged : Event.fed 98 (.ok false) ∈ served.1 := .tail _ (.tail _ (.tail _ (.head _)))
  obtain ⟨_, _, hstays, hagrees⟩ := serveAll_agrees A [.feed 97, .restart, .feed 97, .feed 98]
  obtain ⟨_, hiff, _⟩ := hagrees hdet
  have hrecognizes : A.recognizes (followed served.1) = true := hiff.mp haccepts
  rw [hfollowed] at hrecognizes
  exact ⟨hdet, hlogged, hrefused, hstays 98 hrefused, haccepts, hfollowed, hrecognizes⟩

end ByteLexer.Run
