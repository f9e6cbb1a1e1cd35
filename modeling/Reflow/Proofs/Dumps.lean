import Mathlib.Data.Bool.AllAny
import Reflow.Doc.Dump
import Reflow.Proofs.Marking
import Reflow.Proofs.Quotation
import Reflow.Proofs.Rewriting

/-!
# Dumps are faithful

The dump of a document tells the document, but for one thing: whether a hard line break is soft.  A
dump is a word, or none, and then what is in quotes or brackets.  The word ends at the first
character that is no letter, so it is never the beginning of a longer one; what a text holds is
between its quotes, whatever it looks like; and a part ends where a comma or a bracket follows it.
None of this asks which characters count as printable.

* `Doc.unsoftened`         a document in which no hard line break is soft;
* `Doc.render_unsoftened`  layout does not tell the two apart;
* `Doc.Dumped`             the word and the rest of a dump, kind by kind;
* `Doc.reads`              what begins with a dump begins with no other one;
* `Doc.dump_eq_iff`        documents with one dump are the same but for soft hard breaks.
-/

namespace Reflow.Doc

/-! ## soft hard line breaks -/

mutual
/-- a document in which no hard line break is soft -/
def unsoftened : Doc → Doc
  | .text s => .text s
  | .concat parts => .concat (unsoftenedAll parts)
  | .group contents shouldBreak => .group contents.unsoftened shouldBreak
  | .indent contents => .indent contents.unsoftened
  | .ifBreak broken flat => .ifBreak broken.unsoftened flat.unsoftened
  | .breakParent => .breakParent
  | .linebreak soft hard => .linebreak (soft && !hard) hard
def unsoftenedAll : List Doc → List Doc
  | [] => []
  | d :: ds => d.unsoftened :: unsoftenedAll ds
end

theorem unsoftenedAll_eq (ds : List Doc) : unsoftenedAll ds = ds.map unsoftened := by
  induction ds with
  | nil => rfl
  | cons d ds ih => rw [unsoftenedAll, ih, List.map_cons]

/-- a hard line break is laid out as a new line before anything looks whether it is soft -/
theorem alike_linebreak (soft hard : Bool) :
    (linebreak (soft && !hard) hard).Alike (linebreak soft hard) := by
  cases hard with
  | false =>
    rw [Bool.not_false, Bool.and_true]
    exact Alike.refl _
  | true =>
    refine ⟨rfl, ?_, ?_⟩
    · intro mode after
      cases mode <;> rfl
    · intro o level mode after p
      cases mode <;> rfl

mutual
theorem alike_unsoftened : ∀ d : Doc, d.unsoftened.Alike d
  | .text s => Alike.refl (text s)
  | .concat parts => Alike.concat (alikeAll_unsoftened parts)
  | .group contents shouldBreak => contents.alike_unsoftened.group shouldBreak
  | .indent contents => contents.alike_unsoftened.indent
  | .ifBreak broken flat => broken.alike_unsoftened.ifBreak flat.alike_unsoftened
  | .breakParent => Alike.refl breakParent
  | .linebreak soft hard => alike_linebreak soft hard
theorem alikeAll_unsoftened : ∀ ds : List Doc, AlikeAll (unsoftenedAll ds) ds
  | [] => AlikeAll.refl []
  | d :: ds => d.alike_unsoftened.singleton.append (alikeAll_unsoftened ds)
end

theorem render_unsoftened (d : Doc) (o : Options) : d.unsoftened.render o = d.render o :=
  d.alike_unsoftened.render o

/-! ## the parts of a dump -/

variable {printable : Char → Bool}

/-- the parts of a concatenation that has a word of its own -/
def IsHardline (parts : List Doc) : Prop := ∃ soft, parts = [linebreak soft true, breakParent]

theorem dumpParts_eq (ds : List Doc) :
    dumpParts printable ds = [',', ' '].intercalate (ds.map (dumpChars printable)) := by
  induction ds with
  | nil => rfl
  | cons d ds ih =>
    cases ds with
    | nil => rw [dumpParts, List.map_singleton, List.intercalate_singleton]
    | cons e es =>
      have hne : (e :: es).map (dumpChars printable) ≠ [] := List.cons_ne_nil _ _
      rw [List.map_cons, List.intercalate_cons_of_ne_nil hne, ← ih]
      rfl

theorem dumpChars_concat {parts : List Doc} (h : ¬ IsHardline parts) :
    (concat parts).dumpChars printable =
      '[' :: ([',', ' '].intercalate (parts.map (dumpChars printable)) ++ [']']) := by
  rw [← dumpParts_eq]
  unfold dumpChars
  split
  · contradiction
  · next soft heq => exact absurd ⟨soft, concat.inj heq⟩ h
  · next heq => rw [concat.inj heq]
  all_goals contradiction

/-- what closes a group -/
def groupEnd (shouldBreak : Bool) : List Char :=
  if shouldBreak then ", should_break=True)".toList else [')']

/-- documents, each with the word that its dump begins with and the rest of the dump -/
inductive Dumped (printable : Char → Bool) : Doc → List Char → List Char → Prop where
  | text (s : String) : Dumped printable (text s) [] (Text.quotedChars s.toList printable)
  | hardline (soft : Bool) :
    Dumped printable (concat [linebreak soft true, breakParent]) "hardline".toList []
  | concat {parts : List Doc} (h : ¬ IsHardline parts) :
    Dumped printable (concat parts) []
      ('[' :: ([',', ' '].intercalate (parts.map (dumpChars printable)) ++ [']']))
  | group (contents : Doc) (shouldBreak : Bool) :
    Dumped printable (group contents shouldBreak) "group".toList
      ('(' :: (contents.dumpChars printable ++ groupEnd shouldBreak))
  | indent (contents : Doc) :
    Dumped printable (indent contents) "indent".toList
      ('(' :: (contents.dumpChars printable ++ [')']))
  | ifBreak (broken flat : Doc) :
    Dumped printable (ifBreak broken flat) "if_break".toList
      ('(' :: (broken.dumpChars printable ++ ([',', ' '] ++ (flat.dumpChars printable ++ [')']))))
  | breakParent : Dumped printable breakParent "break_parent".toList []
  | hard (soft : Bool) :
    Dumped printable (linebreak soft true) "hardline_without_break_parent".toList []
  | softline : Dumped printable softline "softline".toList []
  | line : Dumped printable line "line".toList []

theorem exists_dumped (d : Doc) :
    ∃ w rest, Dumped printable d w rest ∧ d.dumpChars printable = w ++ rest := by
  cases d with
  | text s => exact ⟨_, _, .text s, rfl⟩
  | concat parts =>
    by_cases h : IsHardline parts
    · obtain ⟨soft, rfl⟩ := h
      exact ⟨_, _, .hardline soft, rfl⟩
    · exact ⟨_, _, .concat h, dumpChars_concat h⟩
  | group contents shouldBreak => exact ⟨_, _, .group contents shouldBreak, rfl⟩
  | indent contents => exact ⟨_, _, .indent contents, rfl⟩
  | ifBreak broken flat =>
    refine ⟨_, _, .ifBreak broken flat, ?_⟩
    show "if_break(".toList ++ broken.dumpChars printable ++ ", ".toList ++
      flat.dumpChars printable ++ [')'] = _
    simp
  | breakParent => exact ⟨_, _, .breakParent, rfl⟩
  | linebreak soft hard =>
    cases hard with
    | true => exact ⟨_, _, .hard soft, rfl⟩
    | false =>
      cases soft with
      | true => exact ⟨_, _, .softline, rfl⟩
      | false => exact ⟨_, _, .line, rfl⟩

/-! ## words -/

/-- what may follow the dump of a part -/
def partEnds : List Char := [',', ')', ']']

/-- whether a word may go on with a character -/
def isWordChar (c : Char) : Bool := c.isAlpha || c == '_'

theorem not_word_of_ends {r : List Char} (h : Ends partEnds r) :
    ∀ c ∈ r.head?, isWordChar c = false := by
  intro c hc
  have hall : ∀ c ∈ partEnds, isWordChar c = false := List.all_iff_forall_prop.mp (by decide)
  exact hall c (h c hc)

theorem ends_groupEnd (shouldBreak : Bool) (r : List Char) :
    Ends partEnds (groupEnd shouldBreak ++ r) := by
  cases shouldBreak with
  | true => exact Ends.cons (c := ',') (by decide)
  | false => exact Ends.cons (by decide)

theorem groupEnd_inj {shouldBreak shouldBreak' : Bool} {r r' : List Char}
    (h : groupEnd shouldBreak ++ r = groupEnd shouldBreak' ++ r') :
    shouldBreak = shouldBreak' ∧ r = r' := by
  have hne (r r' : List Char) : groupEnd true ++ r ≠ groupEnd false ++ r' := by
    intro heq
    have hhead : some ',' = some ')' := congrArg List.head? heq
    exact absurd hhead (by decide)
  cases shouldBreak <;> cases shouldBreak'
  · exact ⟨rfl, List.append_cancel_left h⟩
  · exact absurd h.symm (hne r' r)
  · exact absurd h (hne r r')
  · exact ⟨rfl, List.append_cancel_left h⟩

namespace Dumped
variable {d : Doc} {w rest : List Char}

/-- the word of a dump has nothing but word characters -/
theorem word (h : Dumped printable d w rest) : ∀ c ∈ w, isWordChar c = true := by
  cases h <;> exact List.all_eq_true.mp (by decide)

/-- what comes after the word is no part of it -/
theorem after (h : Dumped printable d w rest) {r : List Char} (hr : Ends partEnds r) :
    ∀ c ∈ (rest ++ r).head?, isWordChar c = false := by
  have hstop := not_word_of_ends hr
  cases h with
  | text s =>
    rintro _ ⟨⟩
    rcases Text.quoteMark_cases s.toList with hmark | hmark <;> rw [hmark] <;> rfl
  | hardline => exact hstop
  | breakParent => exact hstop
  | hard => exact hstop
  | softline => exact hstop
  | line => exact hstop
  | _ =>
    rintro _ ⟨⟩
    rfl

/-- a dump begins with something that does not follow a part -/
theorem not_ends (h : Dumped printable d w rest) : ¬ Ends partEnds (w ++ rest) := by
  intro hends
  cases h with
  | text s =>
    have hmem := hends (Text.quoteMark s.toList) rfl
    rcases Text.quoteMark_cases s.toList with hmark | hmark
    · exact absurd (hmark ▸ hmem) (by decide)
    · exact absurd (hmark ▸ hmem) (by decide)
  | concat h => exact absurd (hends '[' rfl) (by decide)
  | hardline => exact absurd (hends 'h' rfl) (by decide)
  | group => exact absurd (hends 'g' rfl) (by decide)
  | indent => exact absurd (hends 'i' rfl) (by decide)
  | ifBreak => exact absurd (hends 'i' rfl) (by decide)
  | breakParent => exact absurd (hends 'b' rfl) (by decide)
  | hard => exact absurd (hends 'h' rfl) (by decide)
  | softline => exact absurd (hends 's' rfl) (by decide)
  | line => exact absurd (hends 'l' rfl) (by decide)

end Dumped

theorem dumpChars_not_ends (d : Doc) : ¬ Ends partEnds (d.dumpChars printable) := by
  obtain ⟨w, rest, h, hd⟩ : ∃ w rest, Dumped printable d w rest ∧ _ := d.exists_dumped
  rw [hd]
  exact h.not_ends

/-! ## reading a dump -/

/-- that a text which begins with the dump of a document, and goes on with what may follow a part,
begins so with the dump of no other document -/
def Reads (printable : Char → Bool) (d : Doc) : Prop :=
  ∀ (e : Doc) (r r' : List Char), Ends partEnds r → Ends partEnds r' →
    d.dumpChars printable ++ r = e.dumpChars printable ++ r' →
      d.unsoftened = e.unsoftened ∧ r = r'

theorem parts_inj {ds es : List Doc} (hread : ∀ d ∈ ds, Reads printable d) {r r' : List Char}
    (h : [',', ' '].intercalate (ds.map (dumpChars printable)) ++ ']' :: r =
      [',', ' '].intercalate (es.map (dumpChars printable)) ++ ']' :: r') :
    ds.map unsoftened = es.map unsoftened ∧ r = r' := by
  have hopen (ds : List Doc) : ∀ x ∈ ds.map (dumpChars printable), ¬ Ends partEnds x :=
    List.forall_mem_map.mpr fun d _ => d.dumpChars_not_ends
  have hbracket (r : List Char) : Ends partEnds (']' :: r) := Ends.cons (by decide)
  have hflat := flatMap_of_intercalate (hopen ds) (hopen es) (hbracket r) (hbracket r') h
  rw [List.flatMap_map, List.flatMap_map] at hflat
  -- a bracket is no comma
  have hend (r : List Char) (d : Doc) (_ : True) (t : List Char) (_ : Ends partEnds t) :
      ']' :: r ≠ [',', ' '] ++ d.dumpChars printable ++ t := by
    intro heq
    exact absurd (List.cons.inj heq).1 (by decide)
  have hitem (d : Doc) (hd : d ∈ ds) (e : Doc) (_ : True) (s s' : List Char)
      (hs : Ends partEnds s) (hs' : Ends partEnds s')
      (heq : [',', ' '] ++ d.dumpChars printable ++ s =
        [',', ' '] ++ e.dumpChars printable ++ s') :
      d.unsoftened = e.unsoftened ∧ s = s' := by
    rw [List.append_assoc, List.append_assoc] at heq
    exact hread d hd e s s' hs hs' (List.append_cancel_left heq)
  obtain ⟨hmap, hrest⟩ := flatMap_inj (e := unsoftened) (Q := fun _ => True) (F := Ends partEnds)
    (fun _ _ _ => Ends.cons (by decide)) (hbracket r) (hbracket r') (hend r) (hend r')
    (fun d hd => ⟨trivial, hitem d hd⟩) (fun _ _ => trivial) hflat
  exact ⟨hmap, (List.cons.inj hrest).2⟩

/-- what is between the brackets of a group: its contents, and whether it is marked as broken -/
theorem marked_inj {d e : Doc} (hread : Reads printable d) {shouldBreak shouldBreak' : Bool}
    {r r' : List Char} (h : '(' :: (d.dumpChars printable ++ groupEnd shouldBreak) ++ r =
      '(' :: (e.dumpChars printable ++ groupEnd shouldBreak') ++ r') :
    d.unsoftened = e.unsoftened ∧ shouldBreak = shouldBreak' ∧ r = r' := by
  simp only [List.cons_append, List.append_assoc, List.cons.injEq, true_and] at h
  obtain ⟨hcontents, hend⟩ := hread e _ _ (ends_groupEnd _ r) (ends_groupEnd _ r') h
  exact ⟨hcontents, groupEnd_inj hend⟩

/-- two documents between brackets, as the two of an `ifBreak` -/
theorem pair_inj {d₁ d₂ e₁ e₂ : Doc} (hread₁ : Reads printable d₁) (hread₂ : Reads printable d₂)
    {r r' : List Char}
    (h : '(' :: (d₁.dumpChars printable ++ ([',', ' '] ++ (d₂.dumpChars printable ++ [')']))) ++ r =
      '(' :: (e₁.dumpChars printable ++ ([',', ' '] ++ (e₂.dumpChars printable ++ [')']))) ++ r') :
    d₁.unsoftened = e₁.unsoftened ∧ d₂.unsoftened = e₂.unsoftened ∧ r = r' := by
  have hcomma (r : List Char) : Ends partEnds (',' :: ' ' :: r) := Ends.cons (by decide)
  have hclose (r : List Char) : Ends partEnds (')' :: r) := Ends.cons (by decide)
  simp only [List.cons_append, List.nil_append, List.append_assoc, List.cons.injEq, true_and] at h
  obtain ⟨hfirst, hrest⟩ := hread₁ e₁ _ _ (hcomma _) (hcomma _) h
  simp only [List.cons.injEq, true_and] at hrest
  obtain ⟨hsecond, hrest⟩ := hread₂ e₂ _ _ (hclose r) (hclose r') hrest
  exact ⟨hfirst, hsecond, (List.cons.inj hrest).2⟩

/-- a quote is no bracket -/
theorem quotedChars_ne_bracket (cs r r' : List Char) :
    Text.quotedChars cs printable ++ r ≠ '[' :: r' := by
  intro heq
  have hquote := Text.quoteMark_cases cs
  rw [(List.cons.inj heq).1] at hquote
  exact absurd hquote (by decide)

/-- documents with one word in their dumps are of one kind, and their parts are read in turn -/
theorem Dumped.reads {d e : Doc} {w w' rest rest' r r' : List Char}
    (hd : Dumped printable d w rest) (he : Dumped printable e w' rest')
    (ih : ∀ c ∈ d.children, Reads printable c) (hword : w = w') (h : rest ++ r = rest' ++ r') :
    d.unsoftened = e.unsoftened ∧ r = r' := by
  cases hd with
  | text s =>
    cases he with
    | text t =>
      obtain ⟨hchars, hrest⟩ := Text.quotedChars_inj h
      obtain rfl : s = t := String.toList_injective hchars
      exact ⟨rfl, hrest⟩
    | concat => exact absurd h (quotedChars_ne_bracket _ _ _)
    | _ => exact absurd hword (by decide)
  | hardline soft =>
    cases he with
    | hardline soft' => exact ⟨by cases soft <;> cases soft' <;> rfl, h⟩
    | _ => exact absurd hword (by decide)
  | concat =>
    cases he with
    | concat =>
      simp only [List.cons_append, List.nil_append, List.append_assoc, List.cons.injEq,
        true_and] at h
      obtain ⟨hmap, hrest⟩ := parts_inj ih h
      refine ⟨?_, hrest⟩
      rw [unsoftened, unsoftened, unsoftenedAll_eq, unsoftenedAll_eq]
      exact congrArg Doc.concat hmap
    | text => exact absurd h.symm (quotedChars_ne_bracket _ _ _)
    | _ => exact absurd hword (by decide)
  | group contents shouldBreak =>
    cases he with
    | group contents' shouldBreak' =>
      obtain ⟨hcontents, rfl, hrest⟩ := marked_inj (ih contents (List.mem_singleton.mpr rfl)) h
      refine ⟨?_, hrest⟩
      rw [unsoftened, unsoftened, hcontents]
    | _ => exact absurd hword (by decide)
  | indent contents =>
    cases he with
    | indent contents' =>
      -- the brackets are those of a group without a mark
      change '(' :: (_ ++ groupEnd false) ++ r = '(' :: (_ ++ groupEnd false) ++ r' at h
      obtain ⟨hcontents, -, hrest⟩ := marked_inj (ih contents (List.mem_singleton.mpr rfl)) h
      refine ⟨?_, hrest⟩
      rw [unsoftened, unsoftened, hcontents]
    | _ => exact absurd hword (by decide)
  | ifBreak broken flat =>
    cases he with
    | ifBreak broken' flat' =>
      obtain ⟨hbroken, hflat, hrest⟩ := pair_inj (ih broken (List.mem_pair.mpr (.inl rfl)))
        (ih flat (List.mem_pair.mpr (.inr rfl))) h
      refine ⟨?_, hrest⟩
      rw [unsoftened, unsoftened, hbroken, hflat]
    | _ => exact absurd hword (by decide)
  | breakParent =>
    cases he with
    | breakParent => exact ⟨rfl, h⟩
    | _ => exact absurd hword (by decide)
  | hard soft =>
    cases he with
    | hard soft' => exact ⟨by cases soft <;> cases soft' <;> rfl, h⟩
    | _ => exact absurd hword (by decide)
  | softline =>
    cases he with
    | softline => exact ⟨rfl, h⟩
    | _ => exact absurd hword (by decide)
  | line =>
    cases he with
    | line => exact ⟨rfl, h⟩
    | _ => exact absurd hword (by decide)

theorem reads (d : Doc) : Reads printable d := by
  induction d using induct_children with
  | step d ih =>
    intro e r r' hr hr' h
    obtain ⟨w, rest, hdumped, hd⟩ : ∃ w rest, Dumped printable d w rest ∧ _ := d.exists_dumped
    obtain ⟨w', rest', hdumped', he⟩ : ∃ w rest, Dumped printable e w rest ∧ _ := e.exists_dumped
    rw [hd, he, List.append_assoc, List.append_assoc] at h
    obtain ⟨hword, hrest⟩ :=
      split_inj hdumped.word hdumped'.word (hdumped.after hr) (hdumped'.after hr') h
    exact hdumped.reads hdumped' ih hword hrest

/-! ## documents with one dump -/

theorem isHardline_of_unsoftenedAll {parts : List Doc} (h : IsHardline (unsoftenedAll parts)) :
    IsHardline parts := by
  obtain ⟨soft, h⟩ := h
  match parts, h with
  | [linebreak soft hard, breakParent], h =>
    obtain ⟨-, hhard⟩ := linebreak.inj (List.cons.inj h).1
    exact ⟨soft, by rw [hhard]⟩

/-- a dump does not show whether a hard line break is soft -/
theorem dumpChars_unsoftened (d : Doc) :
    d.unsoftened.dumpChars printable = d.dumpChars printable := by
  induction d using induct_children with
  | step d ih =>
    cases d with
    | text s => rfl
    | concat parts =>
      by_cases h : IsHardline parts
      · obtain ⟨soft, rfl⟩ := h
        rfl
      · have hparts :
            (unsoftenedAll parts).map (dumpChars printable) = parts.map (dumpChars printable) := by
          rw [unsoftenedAll_eq, List.map_map]
          apply List.map_congr_left
          intro part hpart
          exact ih part hpart
        rw [unsoftened, dumpChars_concat h, dumpChars_concat (mt isHardline_of_unsoftenedAll h),
          hparts]
    | group contents shouldBreak =>
      have hcontents := ih contents (List.mem_singleton.mpr rfl)
      show "group(".toList ++ contents.unsoftened.dumpChars printable ++ groupEnd shouldBreak = _
      rw [hcontents]
      rfl
    | indent contents =>
      have hcontents := ih contents (List.mem_singleton.mpr rfl)
      show "indent(".toList ++ contents.unsoftened.dumpChars printable ++ [')'] = _
      rw [hcontents]
      rfl
    | ifBreak broken flat =>
      have hbroken := ih broken (List.mem_pair.mpr (.inl rfl))
      have hflat := ih flat (List.mem_pair.mpr (.inr rfl))
      show "if_break(".toList ++ broken.unsoftened.dumpChars printable ++ ", ".toList ++
        flat.unsoftened.dumpChars printable ++ [')'] = _
      rw [hbroken, hflat]
      rfl
    | breakParent => rfl
    | linebreak soft hard => cases soft <;> cases hard <;> rfl

theorem unsoftened_eq_of_dump {d e : Doc} (h : d.dump printable = e.dump printable) :
    d.unsoftened = e.unsoftened := by
  have hchars : d.dumpChars printable ++ [] = e.dumpChars printable ++ [] := by
    rw [List.append_nil, List.append_nil]
    exact String.ofList_injective h
  exact (d.reads e [] [] Ends.nil Ends.nil hchars).1

/-- **Dumps are faithful.**  Two documents have one dump just if they are the same up to whether
their hard line breaks are soft.  No layout looks at that: documents with one dump have one text on
every page.  Which characters stand for themselves between quotes makes no difference. -/
theorem dump_eq_iff (printable : Char → Bool) (d e : Doc) :
    (d.dump printable = e.dump printable ↔ d.unsoftened = e.unsoftened) ∧
      (d.dump printable = e.dump printable → ∀ o, d.render o = e.render o) := by
  refine ⟨⟨unsoftened_eq_of_dump, ?_⟩, ?_⟩
  · intro h
    unfold dump
    rw [← d.dumpChars_unsoftened, h, e.dumpChars_unsoftened]
  · intro h o
    rw [← d.render_unsoftened, unsoftened_eq_of_dump h, e.render_unsoftened]

/-- a soft hard line break, behind a text that looks like one with a group around it, and a
character that no version of Unicode counts as printable -/
theorem dump_eq_iff_soft :
    let imitation : Doc := text "', group(hardline), \""
    let d : Doc := concat [imitation, concat [linebreak true true, breakParent], text "b\x01"]
    let e : Doc := concat [imitation, hardline, text "b\x01"]
    d.dump = "['\\', group(hardline), \"', hardline, 'b\\x01']" ∧ d.dump = e.dump ∧
      d.unsoftened = e.unsoftened ∧ d.render {} = e.render {} := by
  intro imitation d e
  have hdump : d.dump = e.dump := by decide
  obtain ⟨hiff, hrender⟩ := dump_eq_iff Text.isPrintable d e
  exact ⟨by decide, hdump, hiff.mp hdump, hrender hdump {}⟩

end Reflow.Doc
