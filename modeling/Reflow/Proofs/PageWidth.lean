import Reflow.Proofs.ForcedBreaks

/-!
# The width of the page

A group is laid out flat if the rest of its line fits, where the rest is taken in the mode in which
it stands: groups further on count as broken, though they may turn out flat.  That is safe, because
a group that turns out flat was found to fit itself.

* `Page.Step.fits`           on one line, what fits goes on to fit;
* `Page.lines_fit`           if the rest of a line fits at some place, the line is not too long;
* `Doc.flat_line_le`         so a line on which a group is chosen to be flat is not too long.
-/

namespace Reflow

/-! ## what fits -/

theorem width_nonneg {todo : List Command} {width : Int} (h : fits todo width = true) :
    0 ≤ width := by
  by_contra hw
  rw [fits.eq_def, if_pos (Int.not_le.mp hw)] at h
  cases h

theorem fits_level (todo : List Command) (width : Int) :
    fits (todo.map fun c => ⟨0, c.mode, c.doc⟩) width = fits todo width := by
  fun_induction fits todo width with
  | case1 todo width hw => rw [fits.eq_def, if_pos hw]
  | case2 width hw => rw [List.map_nil, fits.eq_def, if_neg hw]
  | case3 width hw level mode rest s ih =>
    rw [List.map_cons, fits.eq_def, if_neg hw]
    exact ih
  | case4 width hw level mode rest parts ih =>
    have hspread : (Command.spread level mode parts).map (fun c => ⟨0, c.mode, c.doc⟩) =
        Command.spread 0 mode parts := by
      rw [Command.spread, List.map_map]
      rfl
    rw [List.map_append, hspread] at ih
    rw [List.map_cons, fits.eq_def, if_neg hw]
    exact ih
  | case8 width hw level mode rest soft hard hbreak =>
    rw [List.map_cons, fits.eq_def, if_neg hw]
    exact if_pos hbreak
  | case9 width hw level mode rest soft hard hbreak ih =>
    rw [List.map_cons, fits.eq_def, if_neg hw]
    exact (if_neg hbreak).trans ih
  | _ =>
    rw [List.map_cons, fits.eq_def, if_neg ‹_›]
    assumption

theorem fits_indented (level level' : Nat) (mode : Mode) (doc : Doc) (rest : List Command)
    (width : Int) :
    fits (⟨level', mode, doc⟩ :: rest) width = fits (⟨level, mode, doc⟩ :: rest) width := by
  rw [← fits_level, ← fits_level (⟨level, mode, doc⟩ :: rest)]
  rfl

namespace Page
variable {o : Options} {d : Doc} {p q : Page} {ls : Lines}

/-- a command that writes characters leaves the rest of the line as long as it was found to be, or
shorter -/
theorem Step.fits {cs : List Char} (h : Step o p q) (hink : p.ink o = .chars cs)
    (hfits : fits p.todo ((o.printWidth : Int) - p.column) = true) :
    fits q.todo ((o.printWidth : Int) - q.column) = true := by
  have hw := Int.not_lt.mpr (width_nonneg hfits)
  rw [fits.eq_def, if_neg hw] at hfits
  cases h with
  | @text w c level mode s rest =>
    have hcolumn : (o.printWidth : Int) - (c + s.length : Nat) = o.printWidth - c - s.length := by
      omega
    rw [hcolumn]
    exact hfits
  | @space w c level rest =>
    have hcolumn : (o.printWidth : Int) - (c + 1 : Nat) = o.printWidth - c - 1 := by omega
    rw [hcolumn]
    exact hfits
  -- looking ahead does not count levels
  | indent => exact (fits_indented _ _ _ _ _ _).trans hfits
  | newline h => rcases h with rfl | rfl <;> simp [ink] at hink
  -- the group counted as broken before, and now it counts as flat
  | fitted h => exact h
  | _ => exact hfits

/-- a run does not touch the lines that are finished, and it only adds to the last one -/
theorem lines_extend (o : Options) (p : Page) (ls : Lines) :
    ∃ whole more, (p.lines o ls).all = ls.done ++ whole :: more ∧ ls.last <+: whole := by
  induction p using induct_step o generalizing ls with
  | stop p hp =>
    rw [lines_none hp]
    exact ⟨ls.last, [], rfl, List.prefix_rfl⟩
  | step p q hq ih =>
    rw [lines_some hq]
    obtain ⟨whole, more, hall, hwhole⟩ := ih (ls.write (p.ink o))
    cases hink : p.ink o with
    | chars cs =>
      rw [hink] at hall hwhole
      exact ⟨whole, more, hall, (List.prefix_append ls.last cs).trans hwhole⟩
    | newline n =>
      rw [hink, Lines.write, List.append_assoc] at hall
      exact ⟨ls.last, whole :: more, hall, List.prefix_rfl⟩

/-- if the rest of a line fits, the line will be within the width of the page -/
theorem lines_fit (hc : p.column = ls.last.length)
    (hfits : Reflow.fits p.todo ((o.printWidth : Int) - p.column) = true) :
    ∃ whole more, (p.lines o ls).all = ls.done ++ whole :: more ∧
      whole.length ≤ o.printWidth := by
  induction p using induct_step o generalizing ls with
  | stop p hp =>
    have hw := width_nonneg hfits
    rw [lines_none hp]
    exact ⟨ls.last, [], rfl, by omega⟩
  | step p q hq ih =>
    have hstep := step_iff.mp hq
    rw [lines_some hq]
    cases hink : p.ink o with
    | chars cs =>
      have hcq := column_write hstep hc
      rw [hink] at hcq
      exact ih hcq (hstep.fits hink hfits)
    | newline n =>
      have hw := width_nonneg hfits
      obtain ⟨whole, more, hall, -⟩ := lines_extend o q (ls.write (.newline n))
      rw [Lines.write, List.append_assoc] at hall
      exact ⟨ls.last, whole :: more, hall, by omega⟩

/-! ## flat groups -/

/-- some of what is still to be laid out is inside a flat group -/
def HasFlat (p : Page) : Prop := ∃ c ∈ p.todo, c.mode = .flat

/-- the next command is a group that is chosen to be flat because it fits -/
def LaysFlat (o : Options) (p : Page) : Prop :=
  ∃ level contents shouldBreak rest,
    p.todo = ⟨level, .broken, .group contents shouldBreak⟩ :: rest ∧
    p.step o = some { p with todo := ⟨level, .flat, contents⟩ :: rest }

theorem laysFlat_iff : p.LaysFlat o ↔
    ∃ level contents rest, p.todo = ⟨level, .broken, .group contents false⟩ :: rest ∧
      Reflow.fits (⟨level, .flat, contents⟩ :: rest) ((o.printWidth : Int) - p.column) = true := by
  obtain ⟨w, c, todo⟩ := p
  constructor
  · rintro ⟨level, contents, shouldBreak, rest, rfl, hstep⟩
    have h := step_iff.mp hstep
    cases h with
    | fitted h => exact ⟨level, contents, rest, rfl, h⟩
  · rintro ⟨level, contents, rest, rfl, h⟩
    exact ⟨level, contents, false, rest, rfl, (Step.fitted h).step_eq⟩

theorem Step.hasFlat (h : Step o p q) (hq : q.HasFlat) :
    p.HasFlat ∨ Reflow.fits q.todo ((o.printWidth : Int) - q.column) = true := by
  cases h with
  | fitted h => exact .inr h
  | @concat w c level mode parts rest =>
    obtain ⟨command, hmem, hmode⟩ := hq
    left
    rcases List.mem_append.mp hmem with hmem | hmem
    · obtain ⟨doc, -, rfl⟩ := List.mem_map.mp hmem
      exact ⟨_, List.mem_cons_self, hmode⟩
    · exact ⟨command, List.mem_cons_of_mem _ hmem, hmode⟩
  | _ =>
    left
    simp_all [HasFlat]

/-- while something is flat no line is begun -/
theorem Step.ink_of_hasFlat (h : Step o p q) (hp : FlatFirst p.todo) (hflat : p.HasFlat) :
    ∃ cs, p.ink o = .chars cs := by
  cases h with
  | @newline w c level mode soft hard rest h =>
    obtain ⟨command, hmem, hmode⟩ := hflat
    have hhead : mode = .flat := by
      rcases List.mem_cons.mp hmem with rfl | hmem
      · exact hmode
      · exact hp.mode_of_rest command hmem hmode
    have hhard : hard = false := hp.head_unforced hhead
    rcases h with h | h
    · rw [hhead] at h
      cases h
    · rw [hhard] at h
      cases h
  | _ => exact ⟨_, rfl⟩

theorem Reached.fits (h : Reached o d ls p) (hflat : p.HasFlat) :
    Reflow.fits p.todo ((o.printWidth : Int) - p.column) = true := by
  -- from the step at which the group was found to fit no line is begun, so it goes on to fit
  induction h with
  | start =>
    obtain ⟨command, hmem, hmode⟩ := hflat
    rw [List.mem_singleton.mp hmem] at hmode
    cases hmode
  | @step ls p q h hq ih =>
    have hstep := step_iff.mp hq
    rcases hstep.hasFlat hflat with hflat | hfits
    · obtain ⟨cs, hink⟩ := hstep.ink_of_hasFlat h.flatFirst hflat
      exact hstep.fits hink (ih hflat)
    · exact hfits

theorem Reached.of_laysFlat (h : Reached o d ls p) (hflat : p.LaysFlat o) :
    ∃ q, Reached o d ls q ∧ q.HasFlat := by
  obtain ⟨level, contents, shouldBreak, rest, htodo, hstep⟩ := hflat
  have hink : p.ink o = .chars [] := by
    rw [ink, htodo]
  have hq := h.step hstep
  rw [hink, Lines.write, List.append_nil] at hq
  exact ⟨_, hq, ⟨level, .flat, contents⟩, List.mem_cons_self, rfl⟩

theorem Reached.exists_line (h : Reached o d ls p) :
    ∃ whole, (d.lines o).all[ls.done.length]? = some whole ∧ ls.last <+: whole := by
  obtain ⟨whole, more, hall, hwhole⟩ := lines_extend o p ls
  refine ⟨whole, ?_, hwhole⟩
  rw [Doc.lines, h.lines_eq, hall]
  simp

/-- a line on which something is flat is within the width of the page -/
theorem Reached.line_le (h : Reached o d ls p) (hflat : p.LaysFlat o ∨ p.HasFlat)
    {whole : List Char} (hwhole : (d.lines o).all[ls.done.length]? = some whole) :
    whole.length ≤ o.printWidth := by
  obtain ⟨q, hq, hflat⟩ : ∃ q, Reached o d ls q ∧ q.HasFlat := by
    rcases hflat with hflat | hflat
    · exact h.of_laysFlat hflat
    · exact ⟨p, h, hflat⟩
  obtain ⟨line, more, hall, hle⟩ := lines_fit hq.column_eq (hq.fits hflat)
  have hline : (ls.done ++ line :: more)[ls.done.length]? = some line := by simp
  rw [Doc.lines, hq.lines_eq, hall, hline] at hwhole
  rw [← Option.some.inj hwhole]
  exact hle

end Page

/-- **The width of the page.**  The text is lines, joined where the engine began a new one.  At every
step of the engine the column is the number of characters of the line so far.  If a group is chosen
to be flat because it fits, or while something inside such a group is still to be laid out, the whole
line, with all that comes after the group, is within the width of the page.  So no group is flat on
a line that is longer. -/
theorem Doc.flat_line_le (o : Options) (d : Doc) :
    d.layout o = o.endOfLine.newline.intercalate (d.lines o).shown ∧
    ∀ ls p, Page.Reached o d ls p →
      p.written.reverse = o.endOfLine.newline.intercalate ls.shown ∧
      p.column = ls.last.length ∧
      (∃ whole, (d.lines o).all[ls.done.length]? = some whole ∧ ls.last <+: whole ∧
        (p.LaysFlat o ∨ p.HasFlat → whole.length ≤ o.printWidth)) ∧
      ∀ line, (d.lines o).shown[ls.done.length]? = some line → o.printWidth < line.length →
        ¬ (p.LaysFlat o ∨ p.HasFlat) := by
  refine ⟨d.layout_eq o, fun ls p h => ?_⟩
  obtain ⟨whole, hwhole, hlast⟩ := h.exists_line
  refine ⟨?_, h.column_eq, ⟨whole, hwhole, hlast, fun hflat => h.line_le hflat hwhole⟩, ?_⟩
  · rw [h.written_eq, List.reverse_reverse]
    rfl
  · intro line hline hlong hflat
    have hshown := Lines.length_shown hline hwhole
    have hle := h.line_le hflat hwhole
    omega

open Doc in
theorem Doc.flat_line_le_sample :
    let o : Options := { printWidth := 3 }
    let d : Doc := group (concat [text "a", line, text "b"]) false
    (Page.start d).LaysFlat o ∧
      ∃ whole, (d.lines o).all[0]? = some whole ∧ whole.length ≤ o.printWidth := by
  intro o d
  have hfits : fits [⟨0, .flat, concat [text "a", line, text "b"]⟩] 3 = true := by
    have ha : "a".length = 1 := rfl
    have hb : "b".length = 1 := rfl
    simp [fits.eq_def, Command.spread, line, ha, hb]
  have hflat : (Page.start d).LaysFlat o := Page.laysFlat_iff.mpr ⟨0, _, [], rfl, hfits⟩
  obtain ⟨-, -, ⟨whole, hwhole, -, hle⟩, -⟩ := (flat_line_le o d).2 {} _ .start
  exact ⟨hflat, whole, hwhole, hle (.inl hflat)⟩

end Reflow
