import Mathlib.Data.List.Basic
import Reflow.Proofs.ForcedBreaks

/-!
# What marking changes

A PLACE is a list of numbers that leads from a document to a part of it.  Marking goes part by part,
so at every place it leaves what marking makes of the part that was there.  A group is marked in the
end just if it was, or if there is a place in it with a forced break.

* `Doc.children`, `Doc.at?`       the parts directly inside a document, and the part at a place;
* `Doc.Breaks`, `Doc.forced_iff`  a forced break, and documents that hold one;
* `Doc.unmarked`                  a document without its marks;
* `Doc.at?_propagateBreaks`       marking the whole marks every part;
* `Doc.propagateBreaks_exact`     these marks are right, and nothing but the marks is changed.
-/

namespace Reflow.Doc

/-! ## places -/

def children : Doc → List Doc
  | .concat parts => parts
  | .group contents _ => [contents]
  | .indent contents => [contents]
  | .ifBreak broken flat => [broken, flat]
  | .text _ | .breakParent | .linebreak _ _ => []

/-- the part of a document at a place -/
def at? : Doc → List Nat → Option Doc
  | d, [] => some d
  | d, i :: place => (d.children[i]?).bind (at? · place)

theorem at?_cons (d : Doc) (i : Nat) (place : List Nat) :
    d.at? (i :: place) = (d.children[i]?).bind (at? · place) := rfl

theorem weight_children {d e : Doc} (h : e ∈ d.children) : e.weight < d.weight := by
  cases d with
  | concat parts =>
    obtain ⟨before, after, rfl⟩ := List.append_of_mem h
    rw [weight, weightAll_append, weightAll]
    omega
  | group contents shouldBreak =>
    rw [List.mem_singleton.mp h, weight]
    omega
  | indent contents =>
    rw [List.mem_singleton.mp h, weight]
    omega
  | ifBreak broken flat =>
    rw [weight]
    rcases List.mem_pair.mp h with rfl | rfl <;> omega
  | text s => cases h
  | breakParent => cases h
  | linebreak soft hard => cases h

/-- what holds of every document whose parts it holds of, holds of all documents -/
theorem induct_children {P : Doc → Prop} (step : ∀ d : Doc, (∀ e ∈ d.children, P e) → P d)
    (d : Doc) : P d :=
  step d fun e _ => induct_children step e
termination_by d.weight
decreasing_by exact weight_children ‹_›

/-! ## forced breaks -/

/-- what cannot be laid out flat: a hard line break, a `breakParent`, a group marked as broken -/
def Breaks : Doc → Prop
  | .breakParent => True
  | .linebreak _ hard => hard = true
  | .group _ shouldBreak => shouldBreak = true
  | .text _ | .concat _ | .indent _ | .ifBreak _ _ => False

theorem forced_children (d : Doc) :
    d.forced = true ↔ d.Breaks ∨ ∃ e ∈ d.children, e.forced = true := by
  cases d <;> simp [forced, forcedAny_eq, Breaks, children]

/-- a document holds a forced break just if there is one at some place -/
theorem forced_iff (d : Doc) : d.forced = true ↔ ∃ place e, d.at? place = some e ∧ e.Breaks := by
  induction d using induct_children with
  | step d ih =>
    rw [forced_children]
    constructor
    · rintro (h | ⟨e, he, hforced⟩)
      · exact ⟨[], d, rfl, h⟩
      · obtain ⟨i, hi⟩ := List.mem_iff_getElem?.mp he
        obtain ⟨place, b, hb, hbreaks⟩ := (ih e he).mp hforced
        refine ⟨i :: place, b, ?_, hbreaks⟩
        rw [at?_cons, hi]
        exact hb
    · rintro ⟨place, b, hb, hbreaks⟩
      cases place with
      | nil =>
        rw [Option.some.inj hb]
        exact .inl hbreaks
      | cons i place =>
        obtain ⟨e, hi, hb⟩ := Option.bind_eq_some_iff.mp hb
        have he := List.mem_of_getElem? hi
        exact .inr ⟨e, he, (ih e he).mpr ⟨place, b, hb, hbreaks⟩⟩

/-! ## marking -/

mutual
/-- a document without its marks -/
def unmarked : Doc → Doc
  | .concat parts => .concat (unmarkedAll parts)
  | .group contents _ => .group contents.unmarked false
  | .indent contents => .indent contents.unmarked
  | .ifBreak broken flat => .ifBreak broken.unmarked flat.unmarked
  | .text s => .text s
  | .breakParent => .breakParent
  | .linebreak soft hard => .linebreak soft hard
def unmarkedAll : List Doc → List Doc
  | [] => []
  | d :: ds => d.unmarked :: unmarkedAll ds
end

mutual
theorem unmarked_propagate : ∀ d : Doc, d.propagate.1.unmarked = d.unmarked
  | .concat parts => congrArg concat (unmarkedAll_propagateAll parts)
  | .group contents _ => congrArg (group · false) contents.unmarked_propagate
  | .indent contents => congrArg indent contents.unmarked_propagate
  | .ifBreak broken flat => congrArg₂ ifBreak broken.unmarked_propagate flat.unmarked_propagate
  | .text _ => rfl
  | .breakParent => rfl
  | .linebreak _ _ => rfl
theorem unmarkedAll_propagateAll : ∀ ds : List Doc, unmarkedAll (propagateAll ds).1 = unmarkedAll ds
  | [] => rfl
  | d :: ds => congrArg₂ (· :: ·) d.unmarked_propagate (unmarkedAll_propagateAll ds)
end

theorem children_propagateBreaks (d : Doc) :
    d.propagateBreaks.children = d.children.map propagateBreaks := by
  cases d with
  | concat parts =>
    rw [propagateBreaks_concat]
    rfl
  | _ => rfl

/-- marking the whole marks every part -/
theorem at?_propagateBreaks (d : Doc) (place : List Nat) :
    d.propagateBreaks.at? place = (d.at? place).map propagateBreaks := by
  induction place generalizing d with
  | nil => rfl
  | cons i place ih =>
    rw [at?_cons, at?_cons, children_propagateBreaks, List.getElem?_map]
    cases d.children[i]? with
    | none => rfl
    | some e => exact ih e

mutual
/-- where all groups around forced breaks are marked, there is nothing to mark -/
theorem Marked.propagateBreaks_eq : ∀ {d : Doc}, d.Marked → d.propagateBreaks = d
  | .concat parts, h => by
    rw [propagateBreaks_concat, MarkedAll.map_propagateBreaks h]
  | .group contents shouldBreak, ⟨hcontents, hmark⟩ => by
    have hmarks : (shouldBreak || contents.forced) = shouldBreak := by
      cases shouldBreak with
      | true => rfl
      | false => exact Bool.eq_false_iff.mpr fun hforced => Bool.false_ne_true (hmark hforced)
    rw [propagateBreaks_group, hcontents.propagateBreaks_eq, hmarks]
  | .indent _, h => congrArg indent (Marked.propagateBreaks_eq h)
  | .ifBreak _ _, ⟨hbroken, hflat⟩ =>
    congrArg₂ ifBreak hbroken.propagateBreaks_eq hflat.propagateBreaks_eq
  | .text _, _ => rfl
  | .breakParent, _ => rfl
  | .linebreak _ _, _ => rfl
theorem MarkedAll.map_propagateBreaks :
    ∀ {ds : List Doc}, MarkedAll ds → ds.map propagateBreaks = ds
  | [], _ => rfl
  | _ :: _, ⟨hd, hds⟩ =>
    congrArg₂ (· :: ·) hd.propagateBreaks_eq (MarkedAll.map_propagateBreaks hds)
end

theorem propagateBreaks_idem (d : Doc) : d.propagateBreaks.propagateBreaks = d.propagateBreaks :=
  Marked.propagateBreaks_eq d.marked_propagate

theorem render_propagateBreaks (d : Doc) (o : Options) :
    d.propagateBreaks.render o = d.render o := by
  rw [render, render, layout, layout, Page.start, propagateBreaks_idem]
  rfl

/-- **Marking is exact.**  At every place there is what there was, up to the marks of groups.  A
group is marked in the end just if it was, or if there is a forced break at some place inside it; so
a group around a marked one is marked.  Marking again changes nothing, and no text shows whether a
document has been marked. -/
theorem propagateBreaks_exact (d : Doc) :
    (∀ place, (d.propagateBreaks.at? place).map unmarked = (d.at? place).map unmarked) ∧
    (∀ place contents shouldBreak, d.at? place = some (group contents shouldBreak) →
      ∃ contents' marked, d.propagateBreaks.at? place = some (group contents' marked) ∧
        (marked = true ↔ shouldBreak = true ∨
          ∃ inner e, contents.at? inner = some e ∧ e.Breaks)) ∧
    d.propagateBreaks.propagateBreaks = d.propagateBreaks ∧
    (∀ o, d.propagateBreaks.render o = d.render o) ∧
    ∀ place contents marked, d.propagateBreaks.at? place = some (group contents marked) →
      ∀ inner contents', contents.at? inner = some (group contents' true) → marked = true := by
  refine ⟨?_, ?_, d.propagateBreaks_idem, d.render_propagateBreaks, ?_⟩
  · intro place
    rw [at?_propagateBreaks, Option.map_map]
    cases d.at? place with
    | none => rfl
    | some e => exact congrArg some e.unmarked_propagate
  · intro place contents shouldBreak hplace
    refine ⟨contents.propagateBreaks, shouldBreak || contents.forced, ?_, ?_⟩
    · rw [at?_propagateBreaks, hplace, Option.map_some, propagateBreaks_group]
    · rw [Bool.or_eq_true, forced_iff]
  · intro place contents marked hplace inner contents' hinner
    -- what stands at a place of a marked document is itself marked
    rw [at?_propagateBreaks] at hplace
    obtain ⟨e, -, he⟩ := Option.map_eq_some_iff.mp hplace
    have hmarked : (group contents marked).Marked := he ▸ e.marked_propagate
    exact hmarked.2 ((forced_iff contents).mpr ⟨inner, _, hinner, rfl⟩)

/-- a forced break in the flat half of an `ifBreak`, with two groups around it, and a group beside
it that stays as it is -/
theorem propagateBreaks_exact_ifBreak :
    let choice : Doc := ifBreak (text "a") (indent breakParent)
    let d : Doc := group (concat [group choice false, group line false]) false
    d.at? [0, 0] = some (group choice false) ∧ choice.at? [1, 0] = some breakParent ∧
      d.propagateBreaks.at? [0, 0] = some (group choice true) ∧
      d.propagateBreaks.at? [0, 1] = some (group line false) ∧
      d.propagateBreaks.at? [] =
        some (group (concat [group choice true, group line false]) true) := by
  intro choice d
  have hplace : d.at? [0, 0] = some (group choice false) := rfl
  have hforced : choice.at? [1, 0] = some breakParent := rfl
  obtain ⟨-, hexact, -, -, haround⟩ := propagateBreaks_exact d
  obtain ⟨contents, marked, hgroup, hmarked⟩ := hexact [0, 0] choice false hplace
  obtain rfl : marked = true := hmarked.mpr (.inr ⟨[1, 0], breakParent, hforced, trivial⟩)
  obtain rfl : choice = contents := (group.inj (Option.some.inj hgroup)).1
  have houter : d.propagateBreaks.at? [] =
      some (group (concat [group choice true, group line false]) d.forced) := rfl
  have houterMarked : d.forced = true := haround [] _ _ houter [0] choice rfl
  refine ⟨hplace, hforced, hgroup, rfl, ?_⟩
  rw [houter, houterMarked]

end Reflow.Doc
