import ByteLexer.Automaton.ShortestWord
import ByteLexer.Proofs.Automaton.Words
import ByteLexer.Proofs.Automaton.Deterministic
import ByteLexer.Proofs.Automaton.Visits
import ByteLexer.Proofs.Graph.WayBack

/-! # First words

    The breadth-first search over the edges that consume a byte finds, for every state that can be
    reached without silent edges, one of the shortest words that lead there. In a deterministic
    automaton it is the first of them.

    - **Edges.** Those of a state are listed in increasing order of their bytes.
    - **Words.** Without silent edges, what these edges spell is what paths spell.
    - **Visits.** `shortestWord?` gives the word of the only visit to a state, and so does a search
      that notes where each state was found from and walks back.
    - **First words.** With one target for each byte the word is the foremost one.
-/

namespace ByteLexer.Automaton

open Std (TransOrd LawfulEqOrd)

variable {Q : Type} [Ord Q] [TransOrd Q] [LawfulEqOrd Q] {A : Automaton Q} {q r : Q} {b : UInt8}
  {w : List UInt8}

/-! ## Edges -/

theorem mem_byteSuccessors : (b, r) ∈ A.byteSuccessors q ↔ r ∈ A.targets q (some b) := by
  simp only [byteSuccessors, List.mem_filterMap, Option.map_eq_some_iff, Prod.mk.injEq]
  constructor
  · intro hex
    obtain ⟨e, he, c, hc, rfl, rfl⟩ := hex
    obtain ⟨_, hr⟩ := mem_rowEdges.mp he
    rw [hc] at hr
    exact hr
  · intro hr
    exact ⟨⟨q, some b, r⟩, mem_rowEdges.mpr ⟨rfl, hr⟩, b, rfl, rfl, rfl⟩

namespace Deterministic

/-- The entries of a row are in order, and each byte has one target. -/
theorem sorted_byteSuccessors (h : A.Deterministic) (q : Q) :
    (A.byteSuccessors q).Pairwise fun d e => d.1 < e.1 := by
  rw [byteSuccessors, List.pairwise_filterMap]
  refine (sorted_rowEdges q (A.row q)).imp_of_mem fun {d e} hd he hlt x hx y hy => ?_
  obtain ⟨b, hb, rfl⟩ := Option.map_eq_some_iff.mp hx
  obtain ⟨c, hc, rfl⟩ := Option.map_eq_some_iff.mp hy
  rcases hlt with hlt | ⟨hsame, hlt⟩
  · rw [hb, hc] at hlt
    exact Std.compare_eq_lt.mp hlt
  · -- two edges on one byte would have different targets
    have htarget := (mem_rowEdges.mp hd).2
    have htarget' := (mem_rowEdges.mp he).2
    rw [hb] at htarget
    rw [← hsame, hb] at htarget'
    have hself : compare e.target e.target = .eq := Std.ReflCmp.compare_self
    rw [h.single q b _ _ htarget htarget', hself] at hlt
    cases hlt

end Deterministic

/-! ## Words -/

/-- No edge consumes nothing. -/
def SilentFree (A : Automaton Q) : Prop :=
  ∀ q r, r ∉ A.targets q Symbol.epsilon

/-- Without silent edges, a path follows edges that consume a byte. -/
theorem SilentFree.leads_iff_path (h : A.SilentFree) :
    Graph.Leads A.byteSuccessors q w r ↔ A.Path q w r := by
  constructor
  · intro hleads
    induction hleads with
    | nil q => exact .nil q
    | cons he _ ih => exact .byte (mem_byteSuccessors.mp he) ih
  · intro hpath
    induction hpath with
    | nil q => exact .nil q
    | silent hr _ _ => exact absurd hr (h _ _)
    | byte hr _ ih => exact .cons (mem_byteSuccessors.mpr hr) ih

/-! ## Visits -/

/-- A state is visited once, so no later visit replaces its word. -/
theorem shortestWord?_eq_of_mem (x : Graph.Visit Q UInt8)
    (hx : x ∈ Graph.traverse A.byteSuccessors [A.initial] (A.bounded_byteSuccessors _)) :
    A.shortestWord? x.vertex = some x.trail.reverse := by
  rw [shortestWord?, shortestWords]
  apply OrdMap.getElem?_ofList_of_mem
  · rw [List.map_map]
    exact Graph.nodup_vertex_traverse
  · exact List.mem_map.mpr ⟨x, hx, rfl⟩

theorem shortestWord?_eq_none_of_not_mem
    (hq : ∀ x ∈ Graph.traverse A.byteSuccessors [A.initial] (A.bounded_byteSuccessors _),
      x.vertex ≠ q) : A.shortestWord? q = none := by
  rw [shortestWord?, shortestWords]
  apply OrdMap.getElem?_ofList_of_not_mem
  rw [List.map_map]
  intro hmem
  obtain ⟨x, hx, hxq⟩ := List.mem_map.mp hmem
  exact hq x hx hxq

/-- A search that notes where each state was found from, and walks back, has the same answer. -/
theorem answers_iff {answer : Option (List UInt8)} :
    Graph.Answers A.byteSuccessors A.initial q answer ↔ A.shortestWord? q = answer := by
  have hanswers : Graph.Answers A.byteSuccessors A.initial q (A.shortestWord? q) := by
    rcases Graph.exists_answers q (A.bounded_byteSuccessors [A.initial]) with
      ⟨hanswers, hnone⟩ | ⟨x, hx, rfl, hanswers⟩
    · rw [shortestWord?_eq_none_of_not_mem hnone]
      exact hanswers
    · rw [shortestWord?_eq_of_mem x hx]
      exact hanswers
  constructor
  · exact fun h => hanswers.unique h
  · rintro rfl
    exact hanswers

namespace SilentFree

/-- The search finds a state that can be reached, along a visit. -/
theorem exists_mem_traverse (h : A.SilentFree) (hw : A.Path A.initial w q) :
    ∃ x ∈ Graph.traverse A.byteSuccessors [A.initial] (A.bounded_byteSuccessors _),
      x.vertex = q :=
  Graph.exists_mem_traverse_iff.mpr
    (Graph.reachable_iff_exists_leads.mpr ⟨w, h.leads_iff_path.mpr hw⟩)

/-- A state that no word leads to has no shortest word. -/
theorem shortestWord?_eq_none_iff (h : A.SilentFree) :
    A.shortestWord? q = none ↔ ¬∃ w, A.Path A.initial w q := by
  constructor
  · intro hnone hex
    obtain ⟨w, hw⟩ := hex
    obtain ⟨x, hx, rfl⟩ := h.exists_mem_traverse hw
    rw [shortestWord?_eq_of_mem x hx] at hnone
    cases hnone
  · intro hnot
    refine shortestWord?_eq_none_of_not_mem fun x hx hxq => hnot ?_
    obtain ⟨w, hw⟩ := Graph.reachable_iff_exists_leads.mp
      (Graph.exists_mem_traverse_iff.mp ⟨x, hx, hxq⟩)
    exact ⟨w, h.leads_iff_path.mp hw⟩

/-- The word of a state leads there, and no shorter one does. -/
theorem shortest_of_shortestWord? (h : A.SilentFree) (hw : A.shortestWord? q = some w) :
    A.Path A.initial w q ∧ ∀ u, A.Path A.initial u q → w.length ≤ u.length := by
  have hreach : ∃ u, A.Path A.initial u q := by
    by_contra hnot
    rw [h.shortestWord?_eq_none_iff.mpr hnot] at hw
    cases hw
  obtain ⟨u, hu⟩ := hreach
  obtain ⟨x, hx, rfl⟩ := h.exists_mem_traverse hu
  obtain rfl := Option.some.inj ((shortestWord?_eq_of_mem x hx).symm.trans hw)
  obtain ⟨hleads, hshortest⟩ := Graph.shortest_of_mem_traverse x hx
  exact ⟨h.leads_iff_path.mp hleads, fun v hv => hshortest v (h.leads_iff_path.mpr hv)⟩

end SilentFree

/-! ## First words -/

namespace Deterministic

omit [LawfulEqOrd Q] in
theorem silentFree (h : A.Deterministic) : A.SilentFree :=
  h.silent_free

/-- The search finds a state that can be reached, with its foremost word. -/
theorem exists_shortestWord? (h : A.Deterministic) (hw : A.Path A.initial w q) :
    ∃ u, A.shortestWord? q = some u ∧ Graph.Foremost (A.Path A.initial · q) u := by
  obtain ⟨x, hx, rfl⟩ := h.silentFree.exists_mem_traverse hw
  have hforemost := Graph.foremost_of_mem_traverse h.sorted_byteSuccessors x hx
  exact ⟨x.trail.reverse, shortestWord?_eq_of_mem x hx,
    hforemost.congr fun u => h.silentFree.leads_iff_path⟩

/-- The shortest word of a state is the foremost one of those that lead there. -/
theorem shortestWord?_eq_some_iff (h : A.Deterministic) :
    A.shortestWord? q = some w ↔ Graph.Foremost (A.Path A.initial · q) w := by
  constructor
  · intro hword
    by_cases hreach : ∃ u, A.Path A.initial u q
    · obtain ⟨u, hu⟩ := hreach
      obtain ⟨v, hv, hforemost⟩ := h.exists_shortestWord? hu
      rw [hword] at hv
      rw [Option.some.inj hv]
      exact hforemost
    · rw [h.silentFree.shortestWord?_eq_none_iff.mpr hreach] at hword
      cases hword
  · intro hw
    obtain ⟨u, hu, hforemost⟩ := h.exists_shortestWord? hw.holds
    rw [hu, hforemost.unique hw]

end Deterministic

/-- On every graph a search that notes where each state was found from ends, and so does the walk
    back from its goal; `shortestWord?` is the one answer. Without silent edges there is none
    exactly if the state cannot be reached. Any other answer is a word that leads to the state, no
    shorter word does, and in a deterministic automaton no word of the same length that does is
    less. -/
theorem shortestWord_exact (A : Automaton Q) (q : Q) :
    (∀ answer, Graph.Answers A.byteSuccessors A.initial q answer ↔ A.shortestWord? q = answer) ∧
    (A.SilentFree →
      (A.shortestWord? q = none ↔ ¬∃ w, A.Path A.initial w q) ∧
      (∀ w, A.shortestWord? q = some w →
        A.Path A.initial w q ∧ ∀ u, A.Path A.initial u q → w.length ≤ u.length) ∧
      (A.Deterministic → ∀ w, A.shortestWord? q = some w →
        ∀ u, A.Path A.initial u q → u.length = w.length → w ≤ u)) := by
  refine ⟨fun answer => answers_iff, fun hsilent => ⟨?_, ?_, ?_⟩⟩
  · exact hsilent.shortestWord?_eq_none_iff
  · exact fun w hw => hsilent.shortest_of_shortestWord? hw
  · intro hA w hw u hu hlength
    have hforemost := hA.shortestWord?_eq_some_iff.mp hw
    exact hforemost.le_of_length_eq hu hlength

/-- Both states lie on cycles. -/
theorem shortestWord_exact_cycle :
    let A : Automaton Nat := ofParts 0 []
      [⟨0, some 97, 0⟩, ⟨0, some 98, 1⟩, ⟨1, some 97, 0⟩, ⟨1, some 98, 1⟩] []
    A.shortestWord? 1 = some [98] ∧ ∀ u, A.Path A.initial u 1 → u.length = 1 → [98] ≤ u := by
  intro A
  have hA : A.Deterministic := deterministic_of_isDeterministic (by decide)
  obtain ⟨hanswers, hexact⟩ := shortestWord_exact A 1
  have hword : A.shortestWord? 1 = some [98] :=
    (hanswers _).mp (.met (.visit (by decide) .met) (.cons (by rfl) (.nil 0)) (by decide))
  obtain ⟨_, _, hleast⟩ := hexact hA.silentFree
  exact ⟨hword, hleast hA _ hword⟩

end ByteLexer.Automaton
