import Reflow.Proofs.DirectPrinting

/-!
# Printed parameter lists

`Parameters.fragments` says what a parameter list looks like, from the syntax tree alone.

* `printBelow_lower_fragments`   lowered parameters that stand in the order of the source are
                                 printed as these fragments, joined by commas.
-/

namespace Reflow

theorem Printed.all_map_ok {α : Type} {f : α → Printed} {k : α → Doc} {as : List α}
    (h : ∀ a ∈ as, f a = .ok (k a)) : Printed.all (as.map f) = .ok (as.map k) := by
  induction as with
  | nil => rfl
  | cons a as ih =>
    have hrest := ih fun b hb => h b (List.mem_cons_of_mem a hb)
    rw [List.map_cons, Printed.all_cons, h a List.mem_cons_self, hrest]
    rfl

namespace Source

namespace Parameters
open Doc

/-- a parameter by its bare name, or with the document of its default -/
def entryDoc (doc : Tree → Doc) (e : Parameter × Option Tree) : Doc :=
  match e.2 with
  | none => concat [text e.1.name]
  | some d => concat [text e.1.name, text "=", doc d]

/-- the fragments of a parameter list: `/` stands after the last parameter that is positional only,
and a bare `*` before those by name, unless `*name` does -/
def fragments (doc : Tree → Doc) (ps : Parameters) : List Doc :=
  let positional := ps.positionalEntries.map (entryDoc doc)
  let slash := if ps.posOnly = [] then [] else [text "/"]
  let star := match ps.vararg with
    | some p => [concat [text "*", text p.name]]
    | none => if ps.kwOnly = [] then [] else [text "*"]
  let doubleStar := match ps.kwarg with
    | some p => [concat [text "**", text p.name]]
    | none => []
  positional.take ps.posOnly.length ++ slash ++ positional.drop ps.posOnly.length ++ star ++
    ps.byNameEntries.map (entryDoc doc) ++ doubleStar

theorem printedEntry_ok (doc : Tree → Doc) (e : Parameter × Option Tree) :
    printedEntry (fun t => .ok (doc t)) e = .ok (entryDoc doc e) := by
  obtain ⟨p, d?⟩ := e
  cases d? <;> rfl

theorem printedBy_ok (doc : Tree → Doc) (ps : Parameters) :
    ps.printedBy (fun t => .ok (doc t)) =
      .ok (join (concat [text ", ", softline]) (ps.fragments doc)) := by
  have hentries (es : List (Parameter × Option Tree)) :
      Printed.all (es.map (printedEntry fun t => .ok (doc t))) = .ok (es.map (entryDoc doc)) :=
    Printed.all_map_ok fun e _ => printedEntry_ok doc e
  rw [printedBy, hentries, hentries, fragments]
  obtain ⟨posOnly, params, vararg, kwOnly, kwDefaults, kwarg, defaults⟩ := ps
  -- without parameters by name there are no entries for them
  cases posOnly <;> cases vararg <;> cases kwOnly <;> cases kwarg <;>
    simp [Rule.parameters, byNameEntries, Parameters.posOnly, Parameters.vararg, Parameters.kwOnly,
      Parameters.kwarg, Parameter.printed, bind, Except.bind, pure, Except.pure]

end Parameters

/-- the document of a name -/
def nameDoc : Tree → Doc
  | .ident _ id _ => .text id
  | _ => .text ""

/-- **A printed parameter list.**  If parameters and defaults stand in the order of the source and
all defaults can be printed, the lowered parameters are printed as the fragments of the list: the
`m` defaults belong to the last `m` positional parameters, and a parameter by name has its own
default or none. -/
theorem printBelow_lower_fragments (ps : Parameters) (text : String) (above : List Node)
    (doc : Tree → Doc) (hs : ps.Shaped) (ho : ps.InOrder (startsOf text))
    (hdoc : ∀ t ∈ ps.trees, (t.lower (startsOf text)).printBelow
      (ps.lower (startsOf text) :: above) = .ok (doc t)) :
    (ps.lower (startsOf text)).printBelow above =
      .ok (Doc.join (.concat [.text ", ", Doc.softline]) (ps.fragments doc)) := by
  rw [Parameters.printBelow_lower hs ho hdoc]
  exact Parameters.printedBy_ok doc ps

open Doc in
theorem printBelow_lower_fragments_sample :
    sampleParameters.Shaped ∧ sampleParameters.InOrder (startsOf sampleText) ∧
    (∀ t ∈ sampleParameters.trees, (t.lower (startsOf sampleText)).printBelow
      [sampleParameters.lower (startsOf sampleText)] = .ok (nameDoc t)) ∧
    (sampleParameters.lower (startsOf sampleText)).printBelow [] =
      .ok (join (concat [text ", ", softline]) [concat [text "a"], text "/",
        concat [text "b", text "=", text "x"], text "*", concat [text "c"],
        concat [text "d", text "=", text "y"], concat [text "**", text "k"]]) := by
  have hs : sampleParameters.Shaped := by decide
  have ho : sampleParameters.InOrder (startsOf sampleText) := by decide
  have hdoc : ∀ t ∈ sampleParameters.trees, (t.lower (startsOf sampleText)).printBelow
      [sampleParameters.lower (startsOf sampleText)] = .ok (nameDoc t) := by
    intro t ht
    rcases List.mem_cons.mp ht with rfl | ht
    · rfl
    · rw [List.mem_singleton.mp ht]
      rfl
  exact ⟨hs, ho, hdoc,
    printBelow_lower_fragments sampleParameters sampleText [] nameDoc hs ho hdoc⟩

end Source

end Reflow
