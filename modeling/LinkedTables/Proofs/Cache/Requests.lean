import LinkedTables.Cache.Compiler
import LinkedTables.Proofs.Analysis.Faithful
import LinkedTables.Proofs.Expr.Bare
import LinkedTables.Proofs.Links.Sample
import LinkedTables.Proofs.Listing.Written

/-!
# A request determines its listing

The request of an analysis leaves out the data, the rest of the graph and the places in the texts. It
still says all that lowering rests on. One normal form has one tree, apart from places, which plans do
not mention (`plannedAs_bare`). The layout of both analyses is faithful to both graphs, so a plan that
is right for one graph is right for the other one, and there it is the only one
(`plans_of_request`). Equal plans are written down in the same way, so the listings are the same text
(`same_listing_of_request`).
-/

namespace LinkedTables

variable {g : LinkGraph} {root lead lead' : String} {constants : List (String × UInt64)}

theorem Expr.plannedAs_bare : ∀ {e : Expr} {p : Plan},
    e.bare.PlannedAs g root lead constants p ↔ e.PlannedAs g root lead constants p
  | .number _, _ | .bool _, _ | .name .., _ => Iff.rfl
  | .unary .., _ => exists_congr fun _ => and_congr Iff.rfl plannedAs_bare
  | .binary .., _ => exists_congr fun _ => exists_congr fun _ =>
    and_congr Iff.rfl (and_congr plannedAs_bare plannedAs_bare)
  | .ternary .., _ => exists_congr fun _ => exists_congr fun _ => exists_congr fun _ =>
    and_congr Iff.rfl (and_congr plannedAs_bare (and_congr plannedAs_bare plannedAs_bare))

namespace Analysis

/-- Sources with the same trees, apart from places, have the same plans. -/
theorem plans_unique : ∀ {sources sources' : List Source} {plans plans' : List Plan},
    List.Forall₂ (fun s s' : Source => s.tree.bare = s'.tree.bare) sources sources' →
    List.Forall₂ (fun s p => s.tree.PlannedAs g root lead constants p) sources plans →
    List.Forall₂ (fun s p => s.tree.PlannedAs g root lead' constants p) sources' plans' →
    plans = plans'
  | [], _, _, _, .nil, .nil, .nil => rfl
  | _ :: _, _, _, _, .cons hbare hrest, .cons hp hplans, .cons hq hplans' => by
    rw [← Expr.plannedAs_bare, hbare, Expr.plannedAs_bare] at hp
    rw [Expr.plannedAs_unique hp hq, plans_unique hrest hplans hplans']

/-- Sources with the same normal forms have the same trees, apart from places. -/
theorem bare_of_normalized : ∀ {sites sites' : List Site} {sources sources' : List Source},
    List.Forall₂ (fun site s => readSource site = .ok s) sites sources →
    List.Forall₂ (fun site s => readSource site = .ok s) sites' sources' →
    sources.map Source.normal = sources'.map Source.normal →
    List.Forall₂ (fun s s' : Source => s.tree.bare = s'.tree.bare) sources sources'
  | _, _, [], [], _, _, _ => .nil
  | _, _, [], _ :: _, _, _, h | _, _, _ :: _, [], _, _, h => by cases h
  | _ :: _, _ :: _, s :: _, s' :: _, .cons hs hrest, .cons hs' hrest', h => by
    rw [List.map_cons, List.map_cons, List.cons.injEq] at h
    obtain ⟨tokens, htree, hnormal⟩ := readSource_ok hs
    obtain ⟨tokens', htree', hnormal'⟩ := readSource_ok hs'
    exact .cons (Expr.bare_of_normal htree htree' (hnormal ▸ hnormal' ▸ h.1))
      (bare_of_normalized hrest hrest' h.2)

theorem plans_of_request {g g' : LinkGraph} (hg : g.Built) (hg' : g'.Built) {set set' : ExprSet}
    {a a' : Analysis} {sc sc' : Scope} {sources sources' : List Source} {plans plans' : List Plan}
    (h : a.Planned g set sc sources plans) (h' : a'.Planned g' set' sc' sources' plans')
    {mode mode' : Mode} (heq : Request.ofAnalysis a mode = Request.ofAnalysis a' mode') :
    plans = plans' := by
  simp only [Request.ofAnalysis, Request.mk.injEq] at heq
  obtain ⟨-, -, hnormal, -, hlayout, hconstants⟩ := heq
  obtain ⟨-, hrec, lead, -, hplans⟩ := h.faithful hg
  obtain ⟨hfaithful', -, lead', -, hplans'⟩ := h'.faithful hg'
  have hroot : a.root = a'.root := by
    have := congrArg Layout.root hlayout
    rwa [h.layout, h'.layout, layoutOf, layoutOf, ← h.root, ← h'.root] at this
  rw [h.normalized, h'.normalized] at hnormal
  have hbare := bare_of_normalized (forall₂_of_mapM h.readAll) (forall₂_of_mapM h'.readAll) hnormal
  -- the plans of the first graph are right for the second one
  have hmoved : List.Forall₂ (fun s p => s.tree.PlannedAs g' a'.root lead a'.constants p)
      sources plans := by
    rw [← hroot, ← hconstants]
    refine List.Forall₂.flip (((List.forall₂_and_left _ _).2 ⟨hrec, hplans.flip⟩).imp ?_)
    rintro p s ⟨hp, hplan⟩
    exact Expr.plannedAs_of_faithful hg.valid hfaithful' hplan (hlayout ▸ hp)
  exact plans_unique hbare hmoved hplans'

/-- Two analyses with one request have the same listing. -/
theorem listing_eq_of_request {g g' : LinkGraph} (hg : g.Built) (hg' : g'.Built)
    {set set' : ExprSet} {a a' : Analysis} (ha : analyze g set = .ok a)
    (ha' : analyze g' set' = .ok a') {mode mode' : Mode}
    (heq : Request.ofAnalysis a mode = Request.ofAnalysis a' mode') :
    a.listing mode = a'.listing mode' := by
  obtain ⟨-, sc, sources, plans, h⟩ := analyze_ok ha
  obtain ⟨-, sc', sources', plans', h'⟩ := analyze_ok ha'
  have hplans := plans_of_request hg hg' h h' heq
  have hmode : mode = mode' := congrArg Request.mode heq
  have hslots : a.slots = a'.slots := by rw [h.slots, h'.slots, hplans]
  have houtputs : a.outputs = a'.outputs := by rw [h.outputs, h'.outputs, hplans]
  have hlayout : a.layout = a'.layout := congrArg Request.layout heq
  have hnormal : a.normalized = a'.normalized := congrArg Request.expressions heq
  rw [listing, listing, hmode, hslots, houtputs, hlayout, hnormal]

/-- The artifact of an analysis is made of its request and of nothing else. -/
theorem generate_eq_of_request {g g' : LinkGraph} (hg : g.Built) (hg' : g'.Built)
    {set set' : ExprSet} {a a' : Analysis} (ha : analyze g set = .ok a)
    (ha' : analyze g' set' = .ok a') {mode mode' : Mode}
    (heq : Request.ofAnalysis a mode = Request.ofAnalysis a' mode') (now : UInt64) :
    Compiler.generate a mode now = Compiler.generate a' mode' now := by
  have hmode : mode = mode' := congrArg Request.mode heq
  rw [Compiler.generate, Compiler.generate, heq, listing_eq_of_request hg hg' ha ha' heq, hmode]

/-- Every analysis has a listing. -/
theorem exists_listing {g : LinkGraph} {set : ExprSet} {a : Analysis} (ha : analyze g set = .ok a)
    (mode : Mode) : ∃ source, a.listing mode = .ok source := by
  obtain ⟨-, sc, sources, plans, h⟩ := analyze_ok ha
  obtain ⟨hsound, hlt, -⟩ := h.sound
  obtain ⟨order, slots, hwritten⟩ := listing_ok hsound hlt mode
  exact ⟨_, hwritten.listing⟩

/-- Two analyses with one request, whatever graphs and expressions they are of, have one listing,
byte for byte. It can be written, and what is read from it is the program of both. -/
theorem same_listing_of_request {g g' : LinkGraph} (hg : g.Built) (hg' : g'.Built)
    {set set' : ExprSet} {a a' : Analysis} (ha : analyze g set = .ok a)
    (ha' : analyze g' set' = .ok a') {mode mode' : Mode}
    (heq : Request.ofAnalysis a mode = Request.ofAnalysis a' mode') :
    (∃ source, a.listing mode = .ok source ∧ a'.listing mode' = .ok source) ∧
      ∀ now, (Compiler.generate a mode now).map Artifact.program =
        (Compiler.generate a' mode' now).map Artifact.program := by
  obtain ⟨source, hsource⟩ := exists_listing ha mode
  refine ⟨⟨source, hsource, ?_⟩, fun now => ?_⟩
  · rw [← listing_eq_of_request hg hg' ha ha' heq, hsource]
  · rw [generate_eq_of_request hg hg' ha ha' heq]

/-- Other data, fewer rows, more tables, another name and other blanks, and the same listing. -/
theorem same_listing_of_request_regrouped :
    Sample.graph.names ≠ Sample.regrouped.names ∧ Sample.set.names ≠ Sample.respelled.names ∧
      (∃ source, (Sample.analysisNamed "cost").listing .dot = .ok source ∧
        (Sample.analysisNamed "fare").listing .dot = .ok source) ∧
      ∀ now, (Compiler.generate (Sample.analysisNamed "cost") .dot now).map Artifact.program =
        (Compiler.generate (Sample.analysisNamed "fare") .dot now).map Artifact.program :=
  ⟨by decide +kernel, by decide +kernel, same_listing_of_request Sample.graph_built
    Sample.regrouped_built Sample.analyze_graph Sample.analyze_regrouped rfl⟩

end Analysis

end LinkedTables
