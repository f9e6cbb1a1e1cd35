import Reflow.Proofs.ReaderRules
import Reflow.Source.Parameter

/-!
# Parameters as they are read

The items between the commas of a list of parameters are sorted into kinds, but none of them changes
places with another one.  So every default is read between its own parameter and the next one, and
the defaults that are left over belong to the last parameters, as they have to.

* `ParameterItem.places`        the places of a parameter and its default;
* `alignRight_of_defaultsLast`  defaults of the last entries, put back to the right;
* `Parameters.items_of_ofItems?`   which items the entries of parameters are;
* `parameters_spec`             what the reader of parameters gives.
-/

set_option mvcgen.warning false

open Std.Do

namespace Reflow.Source

/-- a parameter and its default, if there is one -/
abbrev Entry := Parameter × Option Tree

/-- the places of a parameter and its default -/
def entryPlaces (e : Entry) : List Position := e.1.pos :: (e.2.map Tree.pos).toList

namespace ParameterItem

def ofEntry (e : Entry) : ParameterItem := .plain e.1 e.2

/-- the places of what is kept of an item -/
def places : ParameterItem → List Position
  | .plain p default? => entryPlaces (p, default?)
  | _ => []

/-- the default of an item, if there is one -/
def default? : ParameterItem → Option Tree
  | .plain _ default? => default?
  | _ => none

theorem spanPlain_append (items : List ParameterItem) :
    (spanPlain items).1.map ofEntry ++ (spanPlain items).2 = items := by
  induction items with
  | nil => rfl
  | cons item items ih =>
    cases item with
    | plain p default? => exact congrArg (ParameterItem.plain p default? :: ·) ih
    | _ => rfl

theorem spanPositional_sublist {items rest : List ParameterItem} {posOnly params : List Entry}
    (h : spanPositional items = (posOnly, params, rest)) :
    ((posOnly ++ params).map ofEntry ++ rest).Sublist items := by
  have hspan := spanPlain_append items
  rw [spanPositional] at h
  dsimp only at h
  split at h
  · next rest' hrest =>
    cases h
    have hspan' := spanPlain_append rest'
    rw [hrest] at hspan
    have hcut : ((spanPlain items).1.map ofEntry ++ rest').Sublist items := by
      conv_rhs => rw [← hspan]
      exact List.Sublist.append_left (List.sublist_cons_self ..) _
    rwa [List.map_append, List.append_assoc, hspan']
  · cases h
    rw [List.nil_append, hspan]

theorem spanStar_sublist (items : List ParameterItem) : (spanStar items).2.Sublist items := by
  unfold spanStar
  split
  · exact List.sublist_cons_self ..
  · exact List.sublist_cons_self ..
  · exact .refl _

theorem byName?_eq {items : List ParameterItem} {entries : List Entry} {last : Option Parameter}
    (h : byName? items = some (entries, last)) :
    items = entries.map ofEntry ++ (last.map doubleStar).toList := by
  induction items generalizing entries with
  | nil =>
    cases h
    rfl
  | cons item items ih =>
    cases item with
    | plain p default? =>
      rw [byName?] at h
      obtain ⟨⟨entries', last'⟩, hrest, heq⟩ := Option.map_eq_some_iff.mp h
      cases heq
      rw [ih hrest]
      rfl
    | doubleStar p =>
      cases items with
      | nil =>
        cases h
        rfl
      | cons item items => cases h
    | _ => cases h

end ParameterItem

/-! ## entries -/

theorem filterMap_snd_of_all {es : List Entry} (h : es.all (·.2.isSome) = true) :
    (es.filterMap (·.2)).map some = es.map (·.2) := by
  induction es with
  | nil => rfl
  | cons e es ih =>
    obtain ⟨p, default?⟩ := e
    rw [List.all_cons, Bool.and_eq_true] at h
    cases default? with
    | none => cases h.1
    | some t => exact congrArg (some t :: ·) (ih h.2)

theorem alignRight_of_defaultsLast {es : List Entry} (h : ParameterItem.defaultsLast es = true) :
    alignRight es.length (es.filterMap (·.2)) = es.map (·.2) := by
  induction es with
  | nil => rfl
  | cons e es ih =>
    obtain ⟨p, default?⟩ := e
    rw [ParameterItem.defaultsLast, Bool.and_eq_true] at h
    cases default? with
    | none =>
      have hle : (es.filterMap (·.2)).length ≤ es.length := List.length_filterMap_le ..
      have hcount : es.length + 1 - (es.filterMap (·.2)).length =
        es.length - (es.filterMap (·.2)).length + 1 := by omega
      have hrest := ih h.2
      rw [alignRight] at hrest
      show List.replicate (es.length + 1 - (es.filterMap (·.2)).length) none ++
        (es.filterMap (·.2)).map some = none :: es.map (·.2)
      rw [hcount, List.replicate_succ, List.cons_append, hrest]
    | some t =>
      have hall : es.all (·.2.isSome) = true := by simpa using h.1
      have hsome := filterMap_snd_of_all hall
      have hlength : (es.filterMap (·.2)).length = es.length := by
        simpa using congrArg List.length hsome
      show List.replicate (es.length + 1 - ((es.filterMap (·.2)).length + 1)) none ++
        some t :: (es.filterMap (·.2)).map some = some t :: es.map (·.2)
      rw [hlength, Nat.sub_self, hsome]
      rfl

theorem zip_fst_snd (es : List Entry) : (es.map (·.1)).zip (es.map (·.2)) = es := by
  simpa only [List.unzip_eq_map] using List.zip_unzip es

namespace Parameters
open ParameterItem

/-- parameters with their defaults, the ones by position and the ones by name -/
def ofEntries (posOnly params : List Entry) (vararg : Option Parameter) (kwOnly : List Entry)
    (kwarg : Option Parameter) : Parameters :=
  .mk (posOnly.map (·.1)) (params.map (·.1)) vararg (kwOnly.map (·.1)) (kwOnly.map (·.2)) kwarg
    ((posOnly ++ params).filterMap (·.2))

/-- the entries of parameters are items, in the same order -/
theorem items_of_ofItems? {items : List ParameterItem} {ps : Parameters}
    (h : ofItems? items = some ps) :
    ∃ posOnly params vararg kwOnly kwarg, ps = ofEntries posOnly params vararg kwOnly kwarg ∧
      defaultsLast (posOnly ++ params) = true ∧
      ((posOnly ++ params ++ kwOnly).map ofEntry).Sublist items := by
  unfold ofItems? at h
  generalize hpositional : spanPositional items = span at h
  obtain ⟨posOnly, params, rest⟩ := span
  have hfront := spanPositional_sublist hpositional
  have hrest := spanStar_sublist rest
  dsimp only at h
  generalize spanStar rest = star at h hrest
  obtain ⟨vararg, named⟩ := star
  obtain ⟨hlast, hsome⟩ := Option.ite_none_left_eq_some.mp h
  obtain ⟨⟨kwOnly, kwarg⟩, hbyName, rfl⟩ := Option.map_eq_some_iff.mp hsome
  dsimp only at hrest hbyName
  rw [byName?_eq hbyName] at hrest
  have hkwOnly := (List.sublist_append_left ..).trans hrest
  refine ⟨posOnly, params, vararg, kwOnly, kwarg, rfl, ?_, ?_⟩
  · simp only [Bool.or_eq_true, Bool.not_eq_true', not_or, Bool.not_eq_false] at hlast
    exact hlast.1
  · rw [List.map_append]
    exact (List.Sublist.append_left hkwOnly _).trans hfront

variable {posOnly params kwOnly : List Entry} {vararg kwarg : Option Parameter}

theorem shaped_ofEntries : (ofEntries posOnly params vararg kwOnly kwarg).Shaped where
  defaults_le := by
    have hle : ((posOnly ++ params).filterMap (·.2)).length ≤ (posOnly ++ params).length :=
      List.length_filterMap_le ..
    show ((posOnly ++ params).filterMap (·.2)).length ≤
      (posOnly.map (·.1) ++ params.map (·.1)).length
    rw [← List.map_append, List.length_map]
    exact hle
  kwDefaults_eq := by
    show (kwOnly.map (·.2)).length = (kwOnly.map (·.1)).length
    rw [List.length_map, List.length_map]

theorem positionalEntries_ofEntries (h : defaultsLast (posOnly ++ params) = true) :
    (ofEntries posOnly params vararg kwOnly kwarg).positionalEntries = posOnly ++ params := by
  have hparams : (ofEntries posOnly params vararg kwOnly kwarg).positional =
      (posOnly ++ params).map (·.1) := List.map_append.symm
  have hdefaults : (ofEntries posOnly params vararg kwOnly kwarg).defaults =
      (posOnly ++ params).filterMap (·.2) := rfl
  rw [positionalEntries, hparams, hdefaults, List.length_map, alignRight_of_defaultsLast h,
    zip_fst_snd]

theorem byNameEntries_ofEntries :
    (ofEntries posOnly params vararg kwOnly kwarg).byNameEntries = kwOnly := zip_fst_snd kwOnly

theorem trees_ofEntries : (ofEntries posOnly params vararg kwOnly kwarg).trees =
    (posOnly ++ params ++ kwOnly).filterMap (·.2) := by
  show (posOnly ++ params).filterMap (·.2) ++ (kwOnly.map (·.2)).filterMap id = _
  rw [List.filterMap_map]
  exact List.filterMap_append.symm

end Parameters

/-! ## reading -/

section
open Reader ParameterItem
variable {starts : List Int} {expression : Reader Tree} {annotation? : Option (Reader Tree)}

/-- what the reader of parameters gives: they fit their defaults, and all these stand in order -/
structure Parameters.Fits (starts : List Int) (ts : List Token) (ps : Parameters)
    (rest : List Token) : Prop where
  shaped : ps.Shaped
  positional : Passes ts rest (ps.positionalEntries.flatMap entryPlaces)
  byName : Passes ts rest (ps.byNameEntries.flatMap entryPlaces)
  sound : ∀ t ∈ ps.trees, t.Sound starts

theorem Parameters.fits_of_items {items : List ParameterItem} {ps : Parameters}
    {ts rest : List Token} (h : ofItems? items = some ps)
    (hplaces : Passes ts rest (items.flatMap places))
    (hsound : ∀ item ∈ items, ∀ t, item.default? = some t → t.Sound starts) :
    ps.Fits starts ts rest := by
  obtain ⟨posOnly, params, vararg, kwOnly, kwarg, rfl, hlast, hitems⟩ := items_of_ofItems? h
  have hall : Passes ts rest ((posOnly ++ params ++ kwOnly).flatMap entryPlaces) := by
    have hsub := hitems.flatMap places
    rw [List.flatMap_map] at hsub
    exact hplaces.sublist hsub
  rw [List.flatMap_append] at hall
  constructor
  · exact shaped_ofEntries
  · rw [positionalEntries_ofEntries hlast]
    exact hall.sublist (List.sublist_append_left ..)
  · rw [byNameEntries_ofEntries]
    exact hall.sublist (List.sublist_append_right ..)
  · intro t ht
    rw [trees_ofEntries] at ht
    obtain ⟨e, he, het⟩ := List.mem_filterMap.mp ht
    have hitem : ofEntry e ∈ items := hitems.subset (List.mem_map_of_mem he)
    exact hsound _ hitem t het

theorem parameter_spec
    (hnoted : ∀ annotation ∈ annotation?, ∀ ts,
      ⦃fun us => ⌜us = ts⌝⦄ annotation ⦃⇓? t us => ⌜Fits starts ts t us⌝⦄)
    (ts : List Token) :
    ⦃fun us => ⌜us = ts⌝⦄ parameter annotation? ⦃⇓? p us => ⌜Passes ts us [p.pos]⌝⦄ := by
  cases annotation? with
  | none =>
    mvcgen [parameter]
    grind
  | some annotation =>
    have hread := hnoted annotation rfl
    mvcgen [parameter, hread]
    all_goals grind [Fits]

theorem parameterItem_spec
    (hexpression : ∀ ts,
      ⦃fun us => ⌜us = ts⌝⦄ expression ⦃⇓? t us => ⌜Fits starts ts t us⌝⦄)
    (hnoted : ∀ annotation ∈ annotation?, ∀ ts,
      ⦃fun us => ⌜us = ts⌝⦄ annotation ⦃⇓? t us => ⌜Fits starts ts t us⌝⦄)
    (ts : List Token) :
    ⦃fun us => ⌜us = ts⌝⦄ parameterItem expression annotation?
    ⦃⇓? item us => ⌜Passes ts us item.places ∧ ∀ t, item.default? = some t → t.Sound starts⌝⦄ := by
  have hparameter := parameter_spec hnoted
  mvcgen [parameterItem, hparameter, hexpression]
  all_goals grind [places, default?, entryPlaces, → Passes.cons, Option.toList_none]

theorem parameters_spec
    (hexpression : ∀ ts,
      ⦃fun us => ⌜us = ts⌝⦄ expression ⦃⇓? t us => ⌜Fits starts ts t us⌝⦄)
    (hnoted : ∀ annotation ∈ annotation?, ∀ ts,
      ⦃fun us => ⌜us = ts⌝⦄ annotation ⦃⇓? t us => ⌜Fits starts ts t us⌝⦄)
    (ts : List Token) :
    ⦃fun us => ⌜us = ts⌝⦄ parameters expression annotation?
    ⦃⇓? ps us => ⌜ps.Fits starts ts us⌝⦄ := by
  have hitems := separated_spec Lexeme.startsParameter (parameterItem_spec hexpression hnoted)
  mvcgen [parameters, hitems]
  grind [Parameters.fits_of_items]

end

end Reflow.Source
