import Reflow.Proofs.ByteOffsets
import Reflow.Proofs.ReadStatements
import Reflow.Source.Read

/-!
# Texts as they are read

Scanning goes through a text from left to right.  It scans one in which line feeds end all lines,
but it counts lines and bytes as the text itself has them: so the place of a token, as an offset, is
the number of bytes before it.  A token takes at least one character, hence the tokens stand one
after the other.

* `Scanner.lexeme?_takes`   a token takes characters;
* `Cursor.At`               a place in a text, with the number of bytes before it;
* `Scanner.step_more`       what one step does;
* `Scanner.run_ordered`, `ordered_scan`   the tokens of a text stand one after the other;
* `grammar_regular`         what is read from a text is regular.
-/

namespace Reflow.Source

open Text

/-! ## the lengths of tokens -/

namespace Literal

theorem decimals_takes {c : Char} (h : c.isDigit = true) (cs : List Char) :
    0 < (decimals (c :: cs)).2 := by
  have hc : c ≠ '_' := by
    rintro rfl
    cases h
  rw [decimals, List.head?_cons, Option.any_some, if_pos h, digits.eq_3 _ _ _ (by grind), if_pos h]
  exact Nat.succ_pos _

section
variable {c : Char} {cs : List Char} {n : Number} {length : Nat}

theorem decimal?_takes (hc : c.isDigit = true ∨ c = '.')
    (h : decimal? (c :: cs) = some (n, length)) : 0 < length := by
  have hwhole := @decimals_takes c
  unfold decimal? at h
  grind [fraction?]

theorem number?_takes (hc : c.isDigit = true ∨ c = '.')
    (h : number? (c :: cs) = some (n, length)) : 0 < length := by
  unfold number? at h
  split at h
  · next c' cs' _ =>
    have hdecimal := @decimal?_takes '0' (c' :: cs') n length (.inl rfl)
    grind [based?]
  · exact decimal?_takes hc h

end

theorem quotation?_takes {cs : List Char} {l : Lexeme} {length : Nat}
    (h : quotation? cs = some (.ended l length)) : 0 < length := by
  unfold quotation? at h
  grind

end Literal

theorem Mark.scan_takes {cs : List Char} {m : Mark} {length : Nat}
    (h : scan cs = some (m, length)) : 0 < length := by
  have hall : ∀ entry ∈ table, 0 < entry.1.length := by decide
  obtain ⟨entry, hentry, heq⟩ := Option.map_eq_some_iff.mp h
  cases heq
  exact hall entry (List.mem_of_find?_eq_some hentry)

theorem Scanner.lexeme?_takes {cs : List Char} {l : Lexeme} {length : Nat}
    (h : lexeme? cs = some (l, length)) : 0 < length := by
  cases cs with
  | nil => cases h
  | cons c cs =>
    have hnumber := @Literal.number?_takes c cs
    have hmark := @Mark.scan_takes (c :: cs)
    unfold lexeme? at h
    grind [isNameChar, List.takeWhile_cons]

/-! ## places in a text -/

theorem byteLength_append (cs ds : List Char) :
    byteLength (cs ++ ds) = byteLength cs + byteLength ds := by
  simp only [← length_bytes, bytes_append, List.length_append]

theorem byteLength_pos {cs : List Char} (h : cs ≠ []) : 0 < byteLength cs := by
  cases cs with
  | nil => exact absurd rfl h
  | cons c cs =>
    have hc := c.utf8Size_pos
    rw [byteLength]
    omega

/-- what a text starts with: what ends a line, or a character inside of one -/
theorem lineFeeds_cases (text : List Char) :
    text = [] ∨
    (∃ ending rest, Ending ending rest ∧ text = ending ++ rest ∧
      lineFeeds text = '\n' :: lineFeeds rest) ∨
    ∃ c rest, isLineEnd c = false ∧ text = c :: rest ∧ lineFeeds text = c :: lineFeeds rest := by
  fun_cases lineFeeds text with
  | case1 => exact .inl rfl
  | case2 rest => exact .inr (.inl ⟨_, rest, .pair rest, rfl, rfl⟩)
  | case3 c rest h =>
    refine .inr ?_
    by_cases hreturn : c = '\r'
    · subst hreturn
      have hnext : rest.head? ≠ some '\n' := by
        intro hrest
        obtain ⟨cs, rfl⟩ := List.head?_eq_some_iff.mp hrest
        exact h cs rfl rfl
      exact .inl ⟨_, rest, .lone hnext, rfl, rfl⟩
    · rw [if_neg (by simpa using hreturn)]
      by_cases hfeed : c = '\n'
      · subst hfeed
        exact .inl ⟨_, rest, .feed rest, rfl, rfl⟩
      · exact .inr ⟨c, rest, isLineEnd_eq_false.mpr ⟨hfeed, hreturn⟩, rfl, rfl⟩

namespace Cursor

/-- `At text n c`: the place has `n` bytes of the text before it.  These are the lines before it and
the part before it on its own line.  The last line may get a line feed that the text does not have.
-/
inductive At (text : List Char) : Nat → Cursor → Prop where
  | mk {before : List (List Char)} {part rest tail : List Char} {column : Nat}
    (hlines : lines text = before ++ lines (part ++ rest)) (hpart : InLine part)
    (htail : tail = [] ∨ tail = ['\n']) :
    At text (byteLength (before.flatten ++ part))
      ⟨lineFeeds rest ++ tail, before.length + 1, column, byteLength part⟩

/-- the end of a text, or a place with at least `n` bytes before it -/
def After (text : List Char) (n : Nat) (c : Cursor) : Prop :=
  c.rest = [] ∨ ∃ m, n ≤ m ∧ c.At text m

variable {text : List Char} {n : Nat} {c : Cursor}

theorem At.after (h : c.At text n) : c.After text n := .inr ⟨n, Nat.le_refl n, h⟩

theorem After.mono {m : Nat} (h : c.After text n) (hm : m ≤ n) : c.After text m := by
  rcases h with h | ⟨k, hk, h⟩
  · exact .inl h
  · exact .inr ⟨k, Nat.le_trans hm hk, h⟩

/-- a place is as far into the text, as an offset, as there are bytes before it -/
theorem At.offset {text : String} (h : c.At text.toList n) :
    (Position.mk (some c.line) c.bytes).offset (startsOf text) = n := by
  cases h with
  | @mk before part rest tail column hlines hpart htail =>
    have hle : before.length ≤ (lines text.toList).length := by
      rw [hlines, List.length_append]
      exact Nat.le_add_right ..
    have hoffset := Position.offset_ofByte hle (byteLength part)
    rw [lineStart, hlines, List.take_left, length_bytes] at hoffset
    rw [byteLength_append]
    exact hoffset

theorem advance_inside {ch : Char} (h : isLineEnd ch = false) (cs : List Char)
    (line column bytes : Nat) :
    (Cursor.mk (ch :: cs) line column bytes).advance 1 =
      ⟨cs, line, column + 1, bytes + ch.utf8Size⟩ := by
  have hfeed : (ch == '\n') = false := beq_eq_false_iff_ne.mpr (isLineEnd_eq_false.mp h).1
  simp only [advance, hfeed, Bool.false_eq_true, if_false]

/-- one character further on there are more bytes before a place -/
theorem At.next (h : c.At text n) (hrest : c.rest ≠ []) : (c.advance 1).After text (n + 1) := by
  cases h with
  | @mk before part rest tail column hlines hpart htail =>
    rcases lineFeeds_cases rest with rfl | ⟨ending, rest', hending, rfl, hfeeds⟩ |
      ⟨ch, rest', hch, rfl, hfeeds⟩
    · -- all of the text is behind, and what may be left is the line feed that it does not have
      rcases htail with rfl | rfl
      · exact absurd rfl hrest
      · exact .inl rfl
    · -- the line ends: one character of what is scanned, and one or two of the text
      rw [lines_ended hpart hending, List.append_cons] at hlines
      have hat : At text _ ⟨lineFeeds rest' ++ tail, _, 0, byteLength []⟩ := .mk hlines nofun htail
      have hending : 0 < byteLength ending := byteLength_pos (by rintro rfl; cases hending)
      rw [List.length_append] at hat
      rw [hfeeds]
      refine .inr ⟨_, ?_, hat⟩
      simp only [List.flatten_append, List.flatten_singleton, byteLength_append]
      omega
    · rw [List.append_cons] at hlines
      have hpart' : InLine (part ++ [ch]) := hpart.append (List.forall_mem_singleton.mpr hch)
      have hat : At text _ ⟨lineFeeds rest' ++ tail, _, column + 1, _⟩ := .mk hlines hpart' htail
      have hbytes : byteLength (part ++ [ch]) = byteLength part + ch.utf8Size :=
        byteLength_append part [ch]
      have hpos : 0 < ch.utf8Size := ch.utf8Size_pos
      rw [hbytes] at hat
      rw [hfeeds, List.cons_append, advance_inside hch]
      refine .inr ⟨_, ?_, hat⟩
      rw [byteLength_append, byteLength_append, hbytes]
      omega

theorem advance_nil (h : c.rest = []) (k : Nat) : c.advance k = c := by
  cases k with
  | zero => rfl
  | succ k => rw [advance, h]

theorem advance_add (c : Cursor) (j k : Nat) : c.advance (j + k) = (c.advance j).advance k := by
  induction j generalizing c with
  | zero => rw [Nat.zero_add, advance]
  | succ j ih =>
    cases hrest : c.rest with
    | nil => rw [advance_nil hrest, advance_nil hrest, advance_nil hrest]
    | cons ch cs =>
      rw [Nat.succ_add, advance, hrest, advance, hrest]
      exact ih _

theorem After.advance (h : c.After text n) (k : Nat) : (c.advance k).After text (n + k) := by
  induction k generalizing c n with
  | zero => exact h
  | succ k ih =>
    by_cases hrest : c.rest = []
    · rw [advance_nil hrest]
      exact .inl hrest
    · obtain ⟨m, hm, hat⟩ := h.resolve_left hrest
      have hrec := ih (hat.next hrest)
      rw [Nat.add_comm k 1, advance_add]
      exact hrec.mono (by omega)

end Cursor

/-! ## steps of scanning -/

namespace Scanner

theorem isLayout_of_layout {c : Cursor} {width : Nat} {margins margins' : List Nat}
    {tokens : List Token} (h : layout c width margins = some (tokens, margins')) :
    ∀ t ∈ tokens, t.lexeme.isLayout = true := by
  unfold layout at h
  grind [Lexeme.isLayout, Cursor.token]

theorem isLayout_of_finishStep {s : Scanner} {lastLine : Nat} {tokens : List Token}
    (h : s.finishStep lastLine = .done tokens) : ∀ t ∈ tokens, t.lexeme.isLayout = true := by
  unfold finishStep at h
  grind [Lexeme.isLayout, finishToken]

theorem tokenStep_more {s s' : Scanner} {tokens : List Token}
    (h : s.tokenStep = .more tokens s') :
    ∃ l k, tokens = [s.cursor.token l] ∧ 0 < k ∧ s'.cursor = s.cursor.advance k := by
  unfold tokenStep at h
  dsimp only at h
  split at h
  · next hquotation =>
    cases h
    exact ⟨_, _, rfl, Literal.quotation?_takes hquotation, rfl⟩
  · cases h
  · split at h
    · cases h
    · next hlexeme =>
      split at h
      · cases h
      · cases h
        exact ⟨_, _, rfl, lexeme?_takes hlexeme, rfl⟩

theorem freshStep_more {s s' : Scanner} {lastLine : Nat} {tokens : List Token}
    (h : s.freshStep lastLine = .more tokens s') :
    (∃ k, s'.cursor = s.cursor.advance k) ∧ ∀ t ∈ tokens, t.lexeme.isLayout = true := by
  unfold freshStep at h
  dsimp only at h
  split at h
  · unfold finishStep at h
    split at h <;> cases h
  · split at h
    · cases h
      exact ⟨⟨_, (Cursor.advance_add ..).symm⟩, nofun⟩
    · split at h
      · cases h
        exact ⟨⟨_, rfl⟩, nofun⟩
      · split at h
        · next hlayout =>
          cases h
          exact ⟨⟨_, rfl⟩, isLayout_of_layout hlayout⟩
        · cases h

/-- A step that goes on takes some characters, and gives tokens of layout or one that stands where
the step starts. -/
theorem step_more {s s' : Scanner} {lastLine : Nat} {tokens : List Token}
    (h : s.step lastLine = .more tokens s') : ∃ k, s'.cursor = s.cursor.advance k ∧
      ((∀ t ∈ tokens, t.lexeme.isLayout = true) ∨
        ∃ l, tokens = [s.cursor.token l] ∧ 0 < k ∧ s.cursor.rest ≠ []) := by
  have hfresh := @freshStep_more s s' lastLine tokens
  have htoken := @tokenStep_more s s' tokens
  unfold step at h
  grind [finishStep]

theorem step_done {s : Scanner} {lastLine : Nat} {tokens : List Token}
    (h : s.step lastLine = .done tokens) : ∀ t ∈ tokens, t.lexeme.isLayout = true := by
  have hfinish := @isLayout_of_finishStep
  unfold step at h
  grind [freshStep, tokenStep]

theorem ordered_layout_append {starts : List Int} {tokens later : List Token}
    (h : ∀ t ∈ tokens, t.lexeme.isLayout = true) (hlater : Ordered starts later) :
    Ordered starts (tokens ++ later) := by
  induction tokens with
  | nil => exact hlater
  | cons t tokens ih =>
    obtain ⟨ht, htokens⟩ := List.forall_mem_cons.mp h
    refine List.pairwise_cons.mpr ⟨fun u _ htoken => ?_, ih htokens⟩
    rw [ht] at htoken
    cases htoken

/-- From a place with `n` bytes before it, the tokens stand one after the other, and none of them
before that place. -/
theorem run_ordered {text : String} {s : Scanner} {n : Nat} (lastLine fuel : Nat)
    (h : s.cursor.After text.toList n) :
    Ordered (startsOf text) (run lastLine fuel s).tokens ∧
    ∀ t ∈ (run lastLine fuel s).tokens, t.lexeme.isLayout = false →
      (n : Int) ≤ t.place.offset (startsOf text) := by
  -- the bound on the places of later tokens is what makes the order of all of them inductive
  induction fuel generalizing s n with
  | zero => exact ⟨.nil, nofun⟩
  | succ fuel ih =>
    rw [run]
    split
    · next tokens s' hstep =>
      obtain ⟨k, hcursor, hlayout | ⟨l, rfl, hk, hrest⟩⟩ := step_more hstep
      · have hafter : s'.cursor.After text.toList n := by
          rw [hcursor]
          exact (h.advance k).mono (Nat.le_add_right n k)
        obtain ⟨hordered, hlater⟩ := ih hafter
        refine ⟨ordered_layout_append hlayout hordered, fun t ht htoken => ?_⟩
        rcases List.mem_append.mp ht with ht | ht
        · rw [hlayout t ht] at htoken
          cases htoken
        · exact hlater t ht htoken
      · obtain ⟨m, hm, hat⟩ := h.resolve_left hrest
        have hplace : (s.cursor.token l).place.offset (startsOf text) = m := hat.offset
        have hafter : s'.cursor.After text.toList (m + 1) := by
          rw [hcursor]
          exact (hat.after.advance k).mono (Nat.add_le_add_left hk m)
        obtain ⟨hordered, hlater⟩ := ih hafter
        refine ⟨List.pairwise_cons.mpr ⟨fun t ht _ htoken => ?_, hordered⟩, fun t ht htoken => ?_⟩
        · have hle := hlater t ht htoken
          omega
        · rcases List.mem_cons.mp ht with rfl | ht
          · omega
          · have hle := hlater t ht htoken
            omega
    · next tokens hstep =>
      have hlayout := step_done hstep
      refine ⟨?_, fun t ht htoken => ?_⟩
      · rw [← List.append_nil tokens]
        exact ordered_layout_append hlayout .nil
      · rw [hlayout t ht] at htoken
        cases htoken
    · exact ⟨.nil, nofun⟩

end Scanner

/-- **The tokens of a text stand one after the other.** -/
theorem ordered_scan (text : String) : Ordered (startsOf text) (scan text.toList).tokens := by
  have hending : ∃ tail, endingLines text.toList = lineFeeds text.toList ++ tail ∧
      (tail = [] ∨ tail = ['\n']) := by
    unfold endingLines
    dsimp only
    split
    · exact ⟨[], (List.append_nil _).symm, .inl rfl⟩
    · exact ⟨_, rfl, .inr rfl⟩
  obtain ⟨tail, htext, htail⟩ := hending
  have hstart : Cursor.At text.toList 0 ⟨endingLines text.toList, 1, 0, 0⟩ := by
    rw [htext]
    exact @Cursor.At.mk _ [] [] _ _ _ rfl nofun htail
  exact (Scanner.run_ordered _ _ hstart.after).1

/-! ## what is read -/

theorem regular_read {text : String} {m : Module} (h : read text.toList = .ok m) :
    m.Regular text := by
  unfold read at h
  split at h
  · cases h
  · dsimp only at h
    split at h
    · next body rest hread =>
      cases h
      have hsound := Reader.triple_iff.mp statements_spec _ (ordered_scan text) body rest hread
      exact Module.forall_subtrees.mpr hsound
    · cases h

/-- Parameters and defaults of what is read stand in order. -/
theorem grammar_regular : grammar.Regular := by
  intro text o m h
  rw [grammar] at h
  cases hread : read text.toList with
  | ok m' =>
    rw [hread] at h
    cases h
    exact regular_read hread
  | error e =>
    rw [hread] at h
    cases h

end Reflow.Source
