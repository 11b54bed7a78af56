import ByteLexer.Automaton.Powerset
import ByteLexer.Automaton.Relabel

/-! # Constructions of automata

    Whoever uses automata does not write down their rows. An automaton is built by a
    sequence of operations, which may take in other automata that are built like this
    and may change the type of the labels. A construction is such a sequence, and
    `build` carries it out.
-/

namespace ByteLexer

open Std (TransOrd LawfulEqOrd)

/-- A type of labels, with its order. -/
structure Labels where
  carrier : Type
  [ord : Ord carrier]
  [trans : TransOrd carrier]
  [lawful : LawfulEqOrd carrier]

namespace Labels

instance : CoeSort Labels Type := ⟨Labels.carrier⟩

instance (L : Labels) : Ord L := L.ord

instance (L : Labels) : TransOrd L := L.trans

instance (L : Labels) : LawfulEqOrd L := L.lawful

end Labels

namespace Automaton

/-- A sequence of operations that builds an automaton with labels of some type.

    - `ofInitial` begins with one state; `addState`, `addEdge` and `addAccepting` add one thing.
    - `overlay` adds the states and the edges of another automaton.
    - `image` changes the labels by a function, `relabel` by a procedure that keeps a state of its
      own, and `qualify` puts a text in front of them.
    - `subsetConstruction` makes the automaton deterministic. -/
inductive Construction : Labels → Type 1 where
  | ofInitial {L : Labels} (q : L) : Construction L
  | addState {L : Labels} (c : Construction L) (q : L) : Construction L
  | addEdge {L : Labels} (c : Construction L) (e : Edge L) : Construction L
  | addAccepting {L : Labels} (c : Construction L) (q : L) : Construction L
  | overlay {L : Labels} (c d : Construction L) : Construction L
  | image {L M : Labels} (f : L → M) (c : Construction L) : Construction M
  | relabel {L M : Labels} {σ : Type} (f : L → StateM σ M) (start : σ) (c : Construction L) :
      Construction M
  | qualify (name : String) (c : Construction ⟨String⟩) : Construction ⟨String⟩
  | subsetConstruction {L : Labels} (c : Construction L) : Construction ⟨StateSet L⟩

/-- Carries out a construction. -/
def Construction.build {L : Labels} : Construction L → Automaton L
  | .ofInitial q => .ofInitial q
  | .addState c q => c.build.addState q
  | .addEdge c e => c.build.addEdge e
  | .addAccepting c q => c.build.addAccepting q
  | .overlay c d => c.build.overlay d.build
  | .image f c => c.build.image f
  | .relabel f start c => ((c.build.relabel f).run start).1
  | .qualify name c => c.build.qualify name
  | .subsetConstruction c => c.build.subsetConstruction

end Automaton
end ByteLexer
