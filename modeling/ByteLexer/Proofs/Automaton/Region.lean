import ByteLexer.Automaton.Path
import ByteLexer.Proofs.Automaton.Deterministic

/-! # Copies of an automaton inside another one

    A relabelled copy of an automaton may be a part of a larger one. A `Region` is
    such a copy that is left in one way only: from the copies of accepting states,
    without a byte, to some given exits.

    - **Into a region.** Every path of the automaton is a path of its copy.
    - **Out of a region.** A path of the larger automaton that starts in the copy
      either stays there, and then is a copy itself, or accepts a part of its word
      there and leaves through an exit.
    - **Images.** The image of an automaton under a function that keeps its states
      apart is a region without exits.
-/

namespace ByteLexer.Automaton

open Std (TransOrd LawfulEqOrd)

variable {Q P : Type} [Ord Q] [TransOrd Q] [Ord P] [TransOrd P]

/-! ## Acceptance from a state -/

/-- A word is accepted from a state if it leads from there to an accepting one. -/
def AcceptsFrom (A : Automaton Q) (q : Q) (w : List UInt8) : Prop :=
  ∃ t, A.Path q w t ∧ t ∈ A.accepting

/-! ## Ends of paths -/

section Ends

variable {A : Automaton Q} {q t : Q} {w : List UInt8}

/-- From a state without edges no path leads away. -/
theorem path_of_stuck (hq : ∀ s r, r ∉ A.targets q s) : A.Path q w t ↔ w = [] ∧ t = q := by
  constructor
  · intro h
    cases h with
    | nil => exact ⟨rfl, rfl⟩
    | silent hr _ => exact absurd hr (hq _ _)
    | byte hr _ => exact absurd hr (hq _ _)
  · intro hand
    obtain ⟨hw, ht⟩ := hand
    rw [hw, ht]
    exact .nil q

/-- From a state that has silent edges only, a path to another state takes one of them. -/
theorem path_of_silent {next : Q → Prop}
    (hq : ∀ s r, r ∈ A.targets q s ↔ s = Symbol.epsilon ∧ next r) (hne : q ≠ t) :
    A.Path q w t ↔ ∃ r, next r ∧ A.Path r w t := by
  constructor
  · intro h
    cases h with
    | nil => exact absurd rfl hne
    | silent hr htail => exact ⟨_, ((hq _ _).mp hr).2, htail⟩
    | byte hr _ => cases ((hq _ _).mp hr).1
  · intro hex
    obtain ⟨r, hr, htail⟩ := hex
    exact .silent ((hq _ _).mpr ⟨rfl, hr⟩) htail

end Ends

/-! ## Regions -/

/-- The states of `A` that satisfy `within` have their copies under `f` in `R`, with all their
    edges. From a copy, `R` leads on along a copied edge only, or from an accepting state to an
    exit without a byte. -/
structure Region (within : Q → Prop) (f : Q → P) (A : Automaton Q) (R : Automaton P)
    (exit : P → Prop) : Prop where
  closed : ∀ {q s r}, within q → r ∈ A.targets q s → within r
  edge : ∀ {q s r}, within q → r ∈ A.targets q s → f r ∈ R.targets (f q) s
  out : ∀ {q x}, within q → q ∈ A.accepting → exit x → x ∈ R.targets (f q) Symbol.epsilon
  leave : ∀ {q s x}, within q → x ∈ R.targets (f q) s →
    (∃ r, r ∈ A.targets q s ∧ f r = x) ∨ (s = Symbol.epsilon ∧ q ∈ A.accepting ∧ exit x)

namespace Region

variable {within : Q → Prop} {f : Q → P} {A : Automaton Q} {R : Automaton P} {exit : P → Prop}
  {q t : Q} {x : P} {w : List UInt8}

theorem within_of_path (h : Region within f A R exit) (hq : within q) (hp : A.Path q w t) :
    within t := by
  induction hp with
  | nil => exact hq
  | silent hr _ ih => exact ih (h.closed hq hr)
  | byte hr _ ih => exact ih (h.closed hq hr)

/-- A path of the automaton is a path of its copy. -/
theorem path (h : Region within f A R exit) (hq : within q) (hp : A.Path q w t) :
    R.Path (f q) w (f t) := by
  induction hp with
  | nil => exact .nil _
  | silent hr _ ih => exact .silent (h.edge hq hr) (ih (h.closed hq hr))
  | byte hr _ ih => exact .byte (h.edge hq hr) (ih (h.closed hq hr))

/-- A word that is accepted in the copy leads to every exit. -/
theorem path_exit (h : Region within f A R exit) (hq : within q) (ha : A.AcceptsFrom q w)
    (hx : exit x) : R.Path (f q) w x := by
  obtain ⟨t, hp, ht⟩ := ha
  have hout : R.Path (f t) [] x := .silent (h.out (h.within_of_path hq hp) ht hx) (.nil x)
  have hw := (h.path hq hp).append hout
  rw [List.append_nil] at hw
  exact hw

/-- A path that starts in the copy stays there or leaves through an exit. -/
theorem split (h : Region within f A R exit) (hq : within q) (hp : R.Path (f q) w x) :
    (∃ t, f t = x ∧ A.Path q w t) ∨
    ∃ u v y, w = u ++ v ∧ A.AcceptsFrom q u ∧ exit y ∧ R.Path y v x := by
  generalize hy : f q = y at hp
  induction hp generalizing q with
  | nil => exact .inl ⟨q, hy, .nil q⟩
  | @silent y z x w hr htail ih =>
    subst hy
    rcases h.leave hq hr with ⟨r, hedge, hz⟩ | ⟨_, hacc, hz⟩
    · rcases ih (h.closed hq hedge) hz with ⟨t, ht, hpath⟩ | ⟨u, v, y, hw, ⟨t, hpath, ht⟩, hy, hrest⟩
      · exact .inl ⟨t, ht, .silent hedge hpath⟩
      · exact .inr ⟨u, v, y, hw, ⟨t, .silent hedge hpath, ht⟩, hy, hrest⟩
    · -- the path leaves at once
      exact .inr ⟨[], w, z, rfl, ⟨q, .nil q, hacc⟩, hz, htail⟩
  | @byte y z x b w hr htail ih =>
    subst hy
    rcases h.leave hq hr with ⟨r, hedge, hz⟩ | ⟨hs, _, _⟩
    · rcases ih (h.closed hq hedge) hz with ⟨t, ht, hpath⟩ | ⟨u, v, y, hw, ⟨t, hpath, ht⟩, hy, hrest⟩
      · exact .inl ⟨t, ht, .byte hedge hpath⟩
      · exact .inr ⟨b :: u, v, y, by rw [hw]; rfl, ⟨t, .byte hedge hpath, ht⟩, hy, hrest⟩
    · cases hs

/-- A path from the copy to a state outside leaves through an exit. -/
theorem leaves (h : Region within f A R exit) (hq : within q) (hx : ∀ t, f t ≠ x)
    (hp : R.Path (f q) w x) :
    ∃ u v y, w = u ++ v ∧ A.AcceptsFrom q u ∧ exit y ∧ R.Path y v x := by
  rcases h.split hq hp with ⟨t, ht, _⟩ | hout
  · exact absurd ht (hx t)
  · exact hout

/-- If the only exit has no edges, the words that lead there are those accepted in the copy. -/
theorem path_exit_iff (h : Region within f A R (· = x)) (hq : within q) (hx : ∀ t, f t ≠ x)
    (hstuck : ∀ s y, y ∉ R.targets x s) : R.Path (f q) w x ↔ A.AcceptsFrom q w := by
  constructor
  · intro hp
    obtain ⟨u, v, y, hw, hu, hy, hrest⟩ := h.leaves hq hx hp
    rw [hy, path_of_stuck hstuck] at hrest
    rw [hw, hrest.1, List.append_nil]
    exact hu
  · intro ha
    exact h.path_exit hq ha rfl

/-- Without exits, the paths from the copy are the copied paths. -/
theorem path_iff (h : Region within f A R fun _ => False) (hq : within q) :
    R.Path (f q) w x ↔ ∃ t, f t = x ∧ A.Path q w t := by
  constructor
  · intro hp
    rcases h.split hq hp with hin | ⟨_, _, _, _, _, hexit, _⟩
    · exact hin
    · exact absurd hexit not_false
  · intro hex
    obtain ⟨t, ht, hp⟩ := hex
    rw [← ht]
    exact h.path hq hp

end Region

/-! ## Images -/

/-- Some states are kept apart by a function if they lie on every edge that touches one of
    them, and no two of them get the same label. -/
structure KeptApart (A : Automaton Q) (f : Q → P) (within : Q → Prop) : Prop where
  source : ∀ {q s r}, r ∈ A.targets q s → within q
  target : ∀ {q s r}, r ∈ A.targets q s → within r
  injective : ∀ {q r}, within q → within r → f q = f r → q = r

omit [Ord P] [TransOrd P] in
/-- An injective function keeps all states apart. -/
theorem keptApart_of_injective (A : Automaton Q) {f : Q → P} (hf : ∀ q r, f q = f r → q = r) :
    A.KeptApart f fun _ => True :=
  ⟨fun _ => trivial, fun _ => trivial, fun _ _ => hf _ _⟩

variable [LawfulEqOrd Q] [LawfulEqOrd P] {A : Automaton Q} {f : Q → P} {q : Q} {w : List UInt8}

/-- The image under a function that keeps the states apart is a region without exits. -/
theorem KeptApart.region {within : Q → Prop} (h : A.KeptApart f within) :
    Region within f A (A.image f) fun _ => False where
  closed _ hr := h.target hr
  edge {q s r} _ hr := mem_targets_image.mpr ⟨q, r, hr, rfl, rfl⟩
  out _ _ hx := hx.elim
  leave {q s x} hq hx := by
    obtain ⟨p, r, hr, hp, hrx⟩ := mem_targets_image.mp hx
    obtain rfl := h.injective (h.source hr) hq hp
    exact .inl ⟨r, hr, hrx⟩

/-- Between the images of states that are kept apart lead the words that lead between them. -/
theorem KeptApart.path_image_iff {within : Q → Prop} (h : A.KeptApart f within) {r : Q}
    (hq : within q) (hr : within r) : (A.image f).Path (f q) w (f r) ↔ A.Path q w r := by
  rw [h.region.path_iff hq]
  constructor
  · intro hex
    obtain ⟨t, ht, hpath⟩ := hex
    rw [h.injective hr (h.region.within_of_path hq hpath) ht.symm]
    exact hpath
  · intro hpath
    exact ⟨r, rfl, hpath⟩

/-- An image of a deterministic automaton is deterministic if the states are kept apart. -/
theorem KeptApart.deterministic {within : Q → Prop} (h : A.KeptApart f within)
    (hA : A.Deterministic) : (A.image f).Deterministic where
  silent_free x y hy := by
    obtain ⟨p, r, hr, _, _⟩ := mem_targets_image.mp hy
    exact hA.silent_free p r hr
  single x b y z hy hz := by
    obtain ⟨p, r, hr, hp, hry⟩ := mem_targets_image.mp hy
    obtain ⟨q, t, ht, hq, htz⟩ := mem_targets_image.mp hz
    -- both edges leave copies of the same state
    obtain rfl := h.injective (h.source hr) (h.source ht) (hp.trans hq.symm)
    obtain rfl := hA.single p b r t hr ht
    exact hry.symm.trans htz

/-- An image under a function that keeps the states apart accepts the same words. -/
theorem KeptApart.accepts_image_iff {within : Q → Prop} (h : A.KeptApart f within)
    (hinit : within A.initial) (hacc : ∀ q ∈ A.accepting, within q) :
    (A.image f).Accepts w ↔ A.Accepts w := by
  simp only [Accepts, initial_image, mem_accepting_image, h.region.path_iff hinit]
  constructor
  · intro hex
    obtain ⟨x, ⟨t, ht, hp⟩, p, hpacc, hpx⟩ := hex
    have hwithin : within t := h.region.within_of_path hinit hp
    obtain rfl := h.injective (hacc p hpacc) hwithin (hpx.trans ht.symm)
    exact ⟨p, hp, hpacc⟩
  · intro hex
    obtain ⟨t, hp, ht⟩ := hex
    exact ⟨f t, ⟨t, rfl, hp⟩, t, ht, rfl⟩

end ByteLexer.Automaton
