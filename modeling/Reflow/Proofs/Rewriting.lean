import Reflow.Proofs.StructuralLayout

/-!
# Documents that are laid out alike

How a document is put together does not show.  Two documents are alike if they force the same
breaks, have the same columns up to their first line end, and are laid out alike from any pen.  This
is kept by everything that documents are built with, so it is enough to compare the parts in which
they differ.

* `Doc.Alike`, `Doc.AlikeAll`   documents, and lists of them, that nothing around them tells apart;
* `Doc.Context`, `Alike.fill`   a document with a place for another one in it;
* `Doc.Rewrite`, `Rewrite.alike`   ways to rearrange a document;
* `Doc.render_rewrite`          none of them shows in a text.
-/

namespace Reflow.Doc

/-! ## what nothing around tells apart -/

structure Alike (d e : Doc) : Prop where
  forced : d.forced = e.forced
  span : ∀ mode after, d.propagateBreaks.span mode after = e.propagateBreaks.span mode after
  lay : ∀ o level mode after p,
    d.propagateBreaks.lay o level mode after p = e.propagateBreaks.lay o level mode after p

structure AlikeAll (ds es : List Doc) : Prop where
  forced : forcedAny ds = forcedAny es
  span : ∀ mode after, spanAll (ds.map propagateBreaks) mode after =
    spanAll (es.map propagateBreaks) mode after
  lay : ∀ o level mode after p, layAll o (ds.map propagateBreaks) level mode after p =
    layAll o (es.map propagateBreaks) level mode after p

section
variable {d d' e e' : Doc} {ds ds' es es' : List Doc}

theorem Alike.refl (d : Doc) : d.Alike d := ⟨rfl, fun _ _ => rfl, fun _ _ _ _ _ => rfl⟩

theorem AlikeAll.refl (ds : List Doc) : AlikeAll ds ds :=
  ⟨rfl, fun _ _ => rfl, fun _ _ _ _ _ => rfl⟩

theorem forcedAny_append (ds es : List Doc) :
    forcedAny (ds ++ es) = (forcedAny ds || forcedAny es) := by
  rw [forcedAny_eq, forcedAny_eq, forcedAny_eq, List.any_append]

theorem AlikeAll.append (h : AlikeAll ds es) (h' : AlikeAll ds' es') :
    AlikeAll (ds ++ ds') (es ++ es') where
  forced := by rw [forcedAny_append, forcedAny_append, h.forced, h'.forced]
  span := by
    intro mode after
    rw [List.map_append, List.map_append, spanAll_append, spanAll_append, h'.span, h.span]
  lay := by
    intro o level mode after p
    rw [List.map_append, List.map_append, layAll_append, layAll_append, h'.span, h.lay, h'.lay]

theorem Alike.concat (h : AlikeAll ds es) : (concat ds).Alike (concat es) where
  forced := h.forced
  span := by
    intro mode after
    rw [propagateBreaks_concat, propagateBreaks_concat]
    exact h.span mode after
  lay := by
    intro o level mode after p
    rw [propagateBreaks_concat, propagateBreaks_concat]
    exact h.lay o level mode after p

theorem Alike.singleton (h : d.Alike e) : AlikeAll [d] [e] where
  forced := congrArg (· || false) h.forced
  span := h.span
  lay := h.lay

theorem Alike.group (h : d.Alike e) (shouldBreak : Bool) :
    (group d shouldBreak).Alike (group e shouldBreak) where
  forced := congrArg (shouldBreak || ·) h.forced
  span := by
    intro mode after
    rw [propagateBreaks_group, propagateBreaks_group, h.forced]
    exact h.span _ after
  lay := by
    intro o level mode after p
    rw [propagateBreaks_group, propagateBreaks_group, h.forced, Doc.lay, Doc.lay, groupMode,
      groupMode, h.span]
    exact h.lay o level _ after p

theorem Alike.indent (h : d.Alike e) : (indent d).Alike (indent e) where
  forced := h.forced
  span := h.span
  lay := fun o level => h.lay o (level + 1)

theorem Alike.ifBreak (h : d.Alike e) (h' : d'.Alike e') : (ifBreak d d').Alike (ifBreak e e') where
  forced := congrArg₂ (· || ·) h.forced h'.forced
  span := fun mode after => congrArg₂ mode.choose (h.span mode after) (h'.span mode after)
  lay := fun o level mode after p =>
    congrArg₂ mode.choose (h.lay o level mode after p) (h'.lay o level mode after p)

/-- what is alike has the same text on every page -/
theorem Alike.render (h : d.Alike e) (o : Options) : d.render o = e.render o := by
  rw [Doc.render, Doc.render, layout_eq_lay, layout_eq_lay, h.lay]

end

/-! ## contexts -/

/-- a document with a place for another one in it -/
inductive Context where
  | hole
  | concat (before : List Doc) (inner : Context) (after : List Doc)
  | group (inner : Context) (shouldBreak : Bool)
  | indent (inner : Context)
  | ifBroken (inner : Context) (other : Doc)
  | ifFlat (other : Doc) (inner : Context)

def Context.fill : Context → Doc → Doc
  | .hole, d => d
  | .concat before inner after, d => .concat (before ++ inner.fill d :: after)
  | .group inner shouldBreak, d => .group (inner.fill d) shouldBreak
  | .indent inner, d => .indent (inner.fill d)
  | .ifBroken inner other, d => .ifBreak (inner.fill d) other
  | .ifFlat other inner, d => .ifBreak other (inner.fill d)

theorem Alike.fill {d e : Doc} (h : d.Alike e) (C : Context) : (C.fill d).Alike (C.fill e) := by
  induction C with
  | hole => exact h
  | concat before inner after ih =>
    exact .concat ((AlikeAll.refl before).append (ih.singleton.append (.refl after)))
  | group inner shouldBreak ih => exact ih.group shouldBreak
  | indent inner ih => exact ih.indent
  | ifBroken inner other ih => exact ih.ifBreak (.refl other)
  | ifFlat other inner ih => exact (Alike.refl other).ifBreak ih

/-! ## rearranged documents -/

/-- ways to rearrange a document -/
inductive Rewrite : Doc → Doc → Prop where
  /-- the parts of a part take its place; so an empty part goes away -/
  | splice (before parts after : List Doc) :
    Rewrite (concat (before ++ concat parts :: after)) (concat (before ++ (parts ++ after)))
  | single (d : Doc) : Rewrite (concat [d]) d
  | dropEmpty (before after : List Doc) :
    Rewrite (concat (before ++ text "" :: after)) (concat (before ++ after))
  | merge (before : List Doc) (s t : String) (after : List Doc) :
    Rewrite (concat (before ++ text s :: text t :: after))
      (concat (before ++ text (s ++ t) :: after))
  | indentParts (parts : List Doc) : Rewrite (indent (concat parts)) (concat (parts.map indent))
  | regroup (d : Doc) : Rewrite (group (group d false) false) (group d false)

theorem alikeAll_parts (ds : List Doc) : AlikeAll [concat ds] ds where
  forced := Bool.or_false _
  span := by
    intro mode after
    rw [List.map_singleton, propagateBreaks_concat]
    rfl
  lay := by
    intro o level mode after p
    rw [List.map_singleton, propagateBreaks_concat]
    rfl

theorem alikeAll_empty : AlikeAll [text ""] [] where
  forced := rfl
  span := fun _ _ => Nat.zero_add _
  lay := fun _ _ _ _ _ => rfl

theorem alikeAll_merge (s t : String) : AlikeAll [text s, text t] [text (s ++ t)] where
  forced := rfl
  span := by
    intro mode after
    show s.length + (t.length + after) = (s ++ t).length + after
    rw [String.length_append, Nat.add_assoc]
  lay := by
    intro o level mode after p
    show (p.type s.toList).type t.toList = p.type (s ++ t).toList
    rw [String.toList_append, Pen.type_append]

theorem spanAll_indent (ds : List Doc) (mode : Mode) (after : Nat) :
    spanAll (ds.map indent) mode after = spanAll ds mode after := by
  induction ds with
  | nil => rfl
  | cons d ds ih => rw [List.map_cons, spanAll, spanAll, ih, span]

theorem layAll_indent (o : Options) (ds : List Doc) (level : Nat) (mode : Mode) (after : Nat)
    (p : Pen) : layAll o (ds.map indent) level mode after p =
      layAll o ds (level + 1) mode after p := by
  induction ds generalizing p with
  | nil => rfl
  | cons d ds ih => rw [List.map_cons, layAll, layAll, ih, lay, spanAll_indent]

theorem alike_indentParts (ds : List Doc) :
    (indent (concat ds)).Alike (concat (ds.map indent)) := by
  have hpropagate : (concat (ds.map indent)).propagateBreaks =
      concat ((ds.map propagateBreaks).map indent) := by
    rw [propagateBreaks_concat, List.map_map, List.map_map]
    rfl
  have hindent : (indent (concat ds)).propagateBreaks =
      indent (concat (ds.map propagateBreaks)) := by
    rw [← propagateBreaks_concat]
    rfl
  refine ⟨?_, ?_, ?_⟩
  · show forcedAny ds = forcedAny (ds.map indent)
    rw [forcedAny_eq, forcedAny_eq, List.any_map]
    rfl
  · intro mode after
    rw [hpropagate, hindent]
    exact (spanAll_indent _ mode after).symm
  · intro o level mode after p
    rw [hpropagate, hindent]
    exact (layAll_indent o _ level mode after p).symm

theorem groupMode_twice (o : Options) (column : Nat) (d : Doc) (shouldBreak : Bool) (mode : Mode)
    (after : Nat) :
    groupMode o column d shouldBreak
        (groupMode o column (group d shouldBreak) shouldBreak mode after) after =
      groupMode o column d shouldBreak mode after := by
  cases shouldBreak with
  | true => rfl
  | false =>
    -- both times it is the same columns that are looked at
    have hspan : (group d false).span .flat after = d.span .flat after := rfl
    simp only [groupMode, hspan, Bool.false_eq_true, if_false]
    by_cases h : mode = .flat ∨ column + d.span .flat after ≤ o.printWidth
    · rw [if_pos h, if_pos (.inl rfl)]
    · rw [if_neg h, if_neg (not_or.mpr ⟨nofun, (not_or.mp h).2⟩)]

theorem alike_regroup (d : Doc) : (group (group d false) false).Alike (group d false) := by
  have hforced : (group d false).forced = d.forced := Bool.false_or _
  have hpropagate : (group (group d false) false).propagateBreaks =
      group (group d.propagateBreaks d.forced) d.forced := by
    rw [propagateBreaks_group, propagateBreaks_group, hforced, Bool.false_or]
  have hgroup : (group d false).propagateBreaks = group d.propagateBreaks d.forced := by
    rw [propagateBreaks_group, Bool.false_or]
  refine ⟨Bool.false_or _, ?_, ?_⟩
  · intro mode after
    rw [hpropagate, hgroup]
    cases d.forced <;> rfl
  · intro o level mode after p
    rw [hpropagate, hgroup, lay, lay, lay, groupMode_twice]

theorem Rewrite.alike {d e : Doc} (h : Rewrite d e) : d.Alike e := by
  cases h with
  | splice before parts after =>
    exact .concat ((AlikeAll.refl before).append ((alikeAll_parts parts).append (.refl after)))
  | single =>
    have h := alikeAll_parts [e]
    exact ⟨(Bool.or_false _).symm.trans (h.forced.trans (Bool.or_false _)), h.span, h.lay⟩
  | dropEmpty before after =>
    exact .concat ((AlikeAll.refl before).append (alikeAll_empty.append (.refl after)))
  | merge before s t after =>
    exact .concat ((AlikeAll.refl before).append ((alikeAll_merge s t).append (.refl after)))
  | indentParts parts => exact alike_indentParts parts
  | regroup d => exact alike_regroup d

/-- **The algebra of documents.**  Wherever a document stands, it may be rearranged: no text shows
it. -/
theorem render_rewrite {d e : Doc} (h : Rewrite d e) (C : Context) (o : Options) :
    (C.fill d).render o = (C.fill e).render o := (h.alike.fill C).render o

/-- texts with blanks at their ends, in the broken half of an `ifBreak` -/
theorem render_rewrite_blanks :
    let C : Context :=
      .group (.ifBroken (.concat [text "x"] .hole [hardline, text "y"]) (text "z")) false
    Rewrite (concat [text "a\t", text " "]) (concat [text "a\t "]) ∧
      (C.fill (concat [text "a\t", text " "])).render {} =
        (C.fill (concat [text "a\t "])).render {} ∧
      (C.fill (concat [text "a\t "])).render {} = "xa\ny" := by
  intro C
  have h : Rewrite (concat [text "a\t", text " "]) (concat [text "a\t "]) := .merge [] "a\t" " " []
  exact ⟨h, render_rewrite h C {}, by decide +kernel⟩

end Reflow.Doc
