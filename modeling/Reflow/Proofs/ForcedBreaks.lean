import Reflow.Doc.Break
import Reflow.Proofs.Run

/-!
# Forced breaks and flat layout

A flat group holds no forced break, since every group around one is marked as broken before layout
begins.  So a flat group ends on the line on which it is begun.

* `Doc.forced`, `Doc.Marked`   a document holds a forced break; groups around one are marked;
* `Doc.propagate_snd`, `Doc.marked_propagate`   what marking finds, and what it leaves;
* `Page.FlatFirst`             the flat commands come first and hold no forced break;
* `Page.Reached.flatFirst`     so it is on every page of a run.
-/

namespace Reflow

namespace Doc

/-! ## documents -/

mutual
/-- whether a document holds a forced break, at any depth -/
def forced : Doc → Bool
  | .text _ => false
  | .breakParent => true
  | .linebreak _ hard => hard
  | .concat parts => forcedAny parts
  | .indent contents => contents.forced
  | .group contents shouldBreak => shouldBreak || contents.forced
  | .ifBreak broken flat => broken.forced || flat.forced
def forcedAny : List Doc → Bool
  | [] => false
  | d :: ds => d.forced || forcedAny ds
end

mutual
def Marked : Doc → Prop
  | .text _ | .breakParent | .linebreak _ _ => True
  | .concat parts => MarkedAll parts
  | .indent contents => contents.Marked
  | .group contents shouldBreak => contents.Marked ∧ (contents.forced = true → shouldBreak = true)
  | .ifBreak broken flat => broken.Marked ∧ flat.Marked
def MarkedAll : List Doc → Prop
  | [] => True
  | d :: ds => d.Marked ∧ MarkedAll ds
end

theorem forcedAny_eq (ds : List Doc) : forcedAny ds = ds.any forced := by
  induction ds with
  | nil => rfl
  | cons d ds ih => rw [forcedAny, ih, List.any_cons]

theorem markedAll_iff (ds : List Doc) : MarkedAll ds ↔ ∀ d ∈ ds, d.Marked := by
  induction ds with
  | nil => exact ⟨fun _ d hd => (nomatch hd), fun _ => trivial⟩
  | cons d ds ih => rw [MarkedAll, ih, List.forall_mem_cons]

mutual
theorem propagate_snd : ∀ d : Doc, d.propagate.2 = d.forced
  | .text _ => rfl
  | .breakParent => rfl
  | .linebreak _ _ => rfl
  | .concat parts => propagateAll_snd parts
  | .indent contents => contents.propagate_snd
  | .group contents shouldBreak => congrArg (shouldBreak || ·) contents.propagate_snd
  | .ifBreak broken flat => congrArg₂ (· || ·) broken.propagate_snd flat.propagate_snd
theorem propagateAll_snd : ∀ ds : List Doc, (propagateAll ds).2 = forcedAny ds
  | [] => rfl
  | d :: ds => congrArg₂ (· || ·) d.propagate_snd (propagateAll_snd ds)
end

theorem propagateAll_fst (ds : List Doc) : (propagateAll ds).1 = ds.map propagateBreaks := by
  induction ds with
  | nil => rfl
  | cons d ds ih => rw [propagateAll, List.map_cons, ← ih]; rfl

theorem propagateBreaks_concat (ds : List Doc) :
    (concat ds).propagateBreaks = concat (ds.map propagateBreaks) := by
  rw [← propagateAll_fst]
  rfl

theorem propagateBreaks_group (d : Doc) (shouldBreak : Bool) :
    (group d shouldBreak).propagateBreaks = group d.propagateBreaks (shouldBreak || d.forced) := by
  show group d.propagate.1 (shouldBreak || d.propagate.2) = _
  rw [propagate_snd]
  rfl

mutual
/-- without a forced break there is nothing to mark -/
theorem propagateBreaks_unforced : ∀ d : Doc, d.forced = false → d.propagateBreaks = d
  | .text _, _ => rfl
  | .breakParent, h => nomatch h
  | .linebreak _ _, _ => rfl
  | .concat parts, h => congrArg concat (propagateAll_unforced parts h)
  | .indent contents, h => congrArg indent (contents.propagateBreaks_unforced h)
  | .group contents shouldBreak, h => by
    have hcontents := (Bool.or_eq_false_iff.mp h).2
    rw [propagateBreaks_group, contents.propagateBreaks_unforced hcontents, hcontents,
      Bool.or_false]
  | .ifBreak broken flat, h => by
    obtain ⟨hbroken, hflat⟩ := Bool.or_eq_false_iff.mp h
    exact congrArg₂ ifBreak (broken.propagateBreaks_unforced hbroken)
      (flat.propagateBreaks_unforced hflat)
theorem propagateAll_unforced : ∀ ds : List Doc, forcedAny ds = false → (propagateAll ds).1 = ds
  | [], _ => rfl
  | d :: ds, h => by
    obtain ⟨hd, hds⟩ := Bool.or_eq_false_iff.mp h
    exact congrArg₂ (· :: ·) (d.propagateBreaks_unforced hd) (propagateAll_unforced ds hds)
end

mutual
theorem forced_propagate : ∀ d : Doc, d.propagate.1.forced = d.forced
  | .text _ => rfl
  | .breakParent => rfl
  | .linebreak _ _ => rfl
  | .concat parts => forcedAny_propagateAll parts
  | .indent contents => contents.forced_propagate
  | .group contents shouldBreak => by
    have hforced := contents.forced_propagate
    have hsnd := contents.propagate_snd
    show ((shouldBreak || contents.propagate.2) || contents.propagate.1.forced) = _
    rw [hforced, hsnd, Bool.or_assoc, Bool.or_self]
    rfl
  | .ifBreak broken flat => congrArg₂ (· || ·) broken.forced_propagate flat.forced_propagate
theorem forcedAny_propagateAll : ∀ ds : List Doc, forcedAny (propagateAll ds).1 = forcedAny ds
  | [] => rfl
  | d :: ds => congrArg₂ (· || ·) d.forced_propagate (forcedAny_propagateAll ds)
end

mutual
theorem marked_propagate : ∀ d : Doc, d.propagate.1.Marked
  | .text _ => trivial
  | .breakParent => trivial
  | .linebreak _ _ => trivial
  | .concat parts => markedAll_propagateAll parts
  | .indent contents => contents.marked_propagate
  | .group contents shouldBreak => by
    refine ⟨contents.marked_propagate, fun h => ?_⟩
    rw [contents.forced_propagate] at h
    show (shouldBreak || contents.propagate.2) = true
    rw [contents.propagate_snd, h, Bool.or_true]
  | .ifBreak broken flat => ⟨broken.marked_propagate, flat.marked_propagate⟩
theorem markedAll_propagateAll : ∀ ds : List Doc, MarkedAll (propagateAll ds).1
  | [] => trivial
  | d :: ds => ⟨d.marked_propagate, markedAll_propagateAll ds⟩
end

end Doc

/-! ## commands -/

/-- groups around forced breaks are marked, and the flat commands come first and hold no forced
break -/
structure FlatFirst (todo : List Command) : Prop where
  marked : ∀ c ∈ todo, c.doc.Marked
  unforced : ∀ c ∈ todo, c.mode = .flat → c.doc.forced = false
  first : todo.Pairwise fun c c' => c'.mode = .flat → c.mode = .flat

namespace FlatFirst
variable {level : Nat} {mode : Mode} {doc : Doc} {rest : List Command}

theorem tail {command : Command} (h : FlatFirst (command :: rest)) : FlatFirst rest where
  marked := fun c hc => h.marked c (List.mem_cons_of_mem _ hc)
  unforced := fun c hc => h.unforced c (List.mem_cons_of_mem _ hc)
  first := h.first.of_cons

theorem head_marked (h : FlatFirst (⟨level, mode, doc⟩ :: rest)) : doc.Marked :=
  h.marked ⟨level, mode, doc⟩ List.mem_cons_self

theorem head_unforced (h : FlatFirst (⟨level, mode, doc⟩ :: rest)) (hmode : mode = .flat) :
    doc.forced = false :=
  h.unforced ⟨level, mode, doc⟩ List.mem_cons_self hmode

/-- below a flat command everything may stand, below a broken one nothing that is flat -/
theorem mode_of_rest (h : FlatFirst (⟨level, mode, doc⟩ :: rest)) :
    ∀ c ∈ rest, c.mode = .flat → mode = .flat := (List.pairwise_cons.mp h.first).1

theorem prepend (h : FlatFirst rest) (new : List Command) (hmode : ∀ c ∈ new, c.mode = mode)
    (hmarked : ∀ c ∈ new, c.doc.Marked)
    (hunforced : mode = .flat → ∀ c ∈ new, c.doc.forced = false)
    (hrest : ∀ c ∈ rest, c.mode = .flat → mode = .flat) : FlatFirst (new ++ rest) where
  marked := List.forall_mem_append.mpr ⟨hmarked, h.marked⟩
  unforced := by
    refine List.forall_mem_append.mpr ⟨fun c hc hflat => ?_, h.unforced⟩
    rw [hmode c hc] at hflat
    exact hunforced hflat c hc
  first := by
    refine List.pairwise_append.mpr ⟨?_, h.first, fun c hc c' hc' hflat => ?_⟩
    · refine List.pairwise_of_forall_mem_list fun c hc c' hc' hflat => ?_
      rw [hmode c hc, ← hmode c' hc', hflat]
    · rw [hmode c hc]
      exact hrest c' hc' hflat

theorem replace {level' : Nat} {mode' : Mode} {doc' : Doc}
    (h : FlatFirst (⟨level, mode, doc⟩ :: rest)) (hmarked : doc'.Marked)
    (hunforced : mode' = .flat → doc'.forced = false) (hmode : mode = .flat → mode' = .flat) :
    FlatFirst (⟨level', mode', doc'⟩ :: rest) :=
  h.tail.prepend [⟨level', mode', doc'⟩]
    (fun c hc => by rw [List.mem_singleton.mp hc])
    (fun c hc => by rw [List.mem_singleton.mp hc]; exact hmarked)
    (fun hflat c hc => by rw [List.mem_singleton.mp hc]; exact hunforced hflat)
    fun c hc hflat => hmode (h.mode_of_rest c hc hflat)

end FlatFirst

namespace Page
variable {o : Options} {d : Doc} {p q : Page} {ls : Lines}

theorem flatFirst_start (d : Doc) : FlatFirst (start d).todo where
  marked := fun c hc => by
    rw [List.mem_singleton.mp hc]
    exact d.marked_propagate
  unforced := fun c hc hflat => by
    rw [List.mem_singleton.mp hc] at hflat
    cases hflat
  first := List.pairwise_singleton _ _

theorem Step.flatFirst (h : Step o p q) (hp : FlatFirst p.todo) : FlatFirst q.todo := by
  cases h with
  | text => exact hp.tail
  | softline => exact hp.tail
  | space => exact hp.tail
  | newline => exact hp.tail
  | breakParent => exact hp.tail
  | @concat w c level mode parts rest =>
    have hmarked := (Doc.markedAll_iff parts).mp hp.head_marked
    refine hp.tail.prepend (Command.spread level mode parts) ?_ ?_ ?_ hp.mode_of_rest
    · exact List.forall_mem_map.mpr fun d _ => rfl
    · exact List.forall_mem_map.mpr hmarked
    · intro hmode
      have hforced : Doc.forcedAny parts = false := hp.head_unforced hmode
      rw [Doc.forcedAny_eq, List.any_eq_false] at hforced
      exact List.forall_mem_map.mpr fun d hd => Bool.eq_false_iff.mpr (hforced d hd)
  | indent => exact hp.replace hp.head_marked hp.head_unforced id
  | inherited =>
    have hforced := hp.head_unforced rfl
    exact hp.replace hp.head_marked.1 (fun _ => hforced) id
  | @fitted w c level contents rest h =>
    -- a group that is not marked holds no forced break
    have hforced : contents.forced = false :=
      Bool.eq_false_iff.mpr fun hf => Bool.false_ne_true (hp.head_marked.2 hf)
    exact hp.replace hp.head_marked.1 (fun _ => hforced) fun h => nomatch h
  | unfitted => exact hp.replace hp.head_marked.1 (fun h => nomatch h) fun h => nomatch h
  | @marked w c level mode contents rest =>
    have hmode : mode ≠ .flat := fun hm => Bool.noConfusion (hp.head_unforced hm)
    exact hp.replace hp.head_marked.1 (fun h => nomatch h) fun hm => absurd hm hmode
  | @ifBreak w c level mode broken flat rest =>
    obtain ⟨hbroken, hflat⟩ := hp.head_marked
    refine hp.replace ?_ (fun hm => ?_) id
    · cases mode with
      | broken => exact hbroken
      | flat => exact hflat
    · have hforced : (broken.forced || flat.forced) = false := hp.head_unforced hm
      subst hm
      exact (Bool.or_eq_false_iff.mp hforced).2

/-- on every page of a run the flat commands come first and hold no forced break -/
theorem Reached.flatFirst (h : Reached o d ls p) : FlatFirst p.todo := by
  induction h with
  | start => exact flatFirst_start d
  | step h hq ih => exact (step_iff.mp hq).flatFirst ih

end Page

end Reflow
