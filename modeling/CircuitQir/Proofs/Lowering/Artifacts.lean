import CircuitQir.Lowering.Artifacts
/-!
# What a sink is offered

A circuit that is lowered with a sink beside it is lowered as it would be without. Whatever state
the sink has and whichever of the offers to it fail, it is offered the circuit, and if there is a
program, the two renderings behind it. The offers a sink has had are a run of it: each is answered
from the state that the one before has left (`Sink.Answers`). One more offer makes the run longer
by one and leaves a warning if it fails (`Kept.Follows.offer`); so warnings go with failures and
stand in their order (`Circuit.lowerWith_offers`).
-/

namespace CircuitQir

variable {σ : Type}

/-- An artifact that a sink has been offered, and what came of it. -/
structure Offer where
  name : String
  artifact : Artifact
  answer : Except String Unit

namespace Offer

/-- What is noted about an offer: a warning if it has failed. -/
def warning? (x : Offer) : Option String :=
  match x.answer with
  | .ok () => none
  | .error e =>
    some ("could not persist " ++ x.name ++ "." ++ x.artifact.extension ++ ": " ++ e)

end Offer

/-- From one state, a sink comes to another by answering offers in their order. -/
inductive Sink.Answers (sink : Sink σ) (start : σ) : List Offer → σ → Prop
  | nothing : Answers sink start [] start
  | concat {offers : List Offer} {s s' : σ} {name : String} {a : Artifact}
    {answer : Except String Unit} (h : Answers sink start offers s)
    (hpersist : sink.persist s name a = (s', answer)) :
    Answers sink start (offers ++ [⟨name, a, answer⟩]) s'

/-- What is kept is what some offers have come to: the state of the sink behind them, and the
warnings about those that failed. -/
structure Kept.Follows (k : Kept σ) (sink : Sink σ) (start : σ) (offers : List Offer) : Prop where
  answers : sink.Answers start offers k.state
  warnings : k.warnings = offers.filterMap Offer.warning?

theorem Kept.follows_nothing (sink : Sink σ) (start : σ) :
    (Kept.mk start []).Follows sink start [] :=
  ⟨.nothing, rfl⟩

/-- One more offer is answered, and failing leaves one more warning and nothing else. -/
theorem Kept.Follows.offer {k : Kept σ} {sink : Sink σ} {start : σ} {offers : List Offer}
    (h : k.Follows sink start offers) (name : String) (a : Artifact) :
    ∃ answer, (sink.offer name k a).Follows sink start (offers ++ [⟨name, a, answer⟩]) := by
  have hwarnings (answer : Except String Unit) :
      (offers ++ [Offer.mk name a answer]).filterMap Offer.warning? =
        k.warnings ++ (Offer.mk name a answer).warning?.toList := by
    rw [List.filterMap_append, h.warnings]
    cases answer <;> rfl
  unfold Sink.offer
  split
  · rename_i s hpersist
    exact ⟨.ok (), h.answers.concat hpersist, ((hwarnings (.ok ())).trans (List.append_nil _)).symm⟩
  · rename_i s e hpersist
    exact ⟨.error e, h.answers.concat hpersist, (hwarnings (.error e)).symm⟩

/-- So are any number of offers, one after the other. -/
theorem Kept.Follows.foldl_offer {sink : Sink σ} {start : σ} (name : String) :
    ∀ (as : List Artifact) {k : Kept σ} {offers : List Offer}, k.Follows sink start offers →
      ∃ further, (as.foldl (sink.offer name) k).Follows sink start (offers ++ further) ∧
        further.map Offer.artifact = as ∧ ∀ x ∈ further, x.name = name
  | [], _, offers, h => ⟨[], by rwa [List.append_nil], rfl, nofun⟩
  | a :: as, k, offers, h => by
    obtain ⟨answer, hfirst⟩ := h.offer name a
    obtain ⟨further, hall, hartifacts, hnames⟩ := hfirst.foldl_offer name as
    refine ⟨⟨name, a, answer⟩ :: further, ?_, ?_, List.forall_mem_cons.mpr ⟨rfl, hnames⟩⟩
    · rwa [List.append_cons]
    · rw [List.map_cons, hartifacts]

namespace Circuit

/-- What there is to keep of a circuit: itself, and if it is lowered, the renderings. -/
def artifacts (c : Circuit) (o : Options) : List Artifact :=
  .circuit c.document ::
    match c.lower o with
    | .ok p => [.text p.text, .bitcode p.bitcode]
    | .error _ => []

/-- All artifacts are offered, and the outcome is handed on. -/
theorem lowerWith_eq (sink : Sink σ) (start : σ) (c : Circuit) (o : Options) :
    c.lowerWith sink start o =
      ((c.artifacts o).foldl (sink.offer (entryPointName c o)) ⟨start, []⟩, c.lower o) := by
  unfold lowerWith artifacts
  cases c.lower o with
  | error e => rfl
  | ok p => rfl

/-- A sink does not interfere. The outcome is that without it, and the sink is offered each of the
artifacts once and in order, all under the name of the entry point, whether or not it fails to keep
some of them; for each that it fails to keep, in this order, there is one warning. -/
theorem lowerWith_offers (sink : Sink σ) (start : σ) (c : Circuit) (o : Options) :
    (c.lowerWith sink start o).2 = c.lower o ∧
    ∃ offers, sink.Answers start offers (c.lowerWith sink start o).1.state ∧
      offers.map Offer.artifact = c.artifacts o ∧
      (∀ x ∈ offers, x.name = entryPointName c o) ∧
      (c.lowerWith sink start o).1.warnings = offers.filterMap Offer.warning? := by
  obtain ⟨offers, hfollows, hartifacts, hnames⟩ :=
    (Kept.follows_nothing sink start).foldl_offer (entryPointName c o) (c.artifacts o)
  rw [List.nil_append] at hfollows
  rw [lowerWith_eq]
  exact ⟨rfl, offers, hfollows.answers, hartifacts, hnames, hfollows.warnings⟩

end Circuit

end CircuitQir
