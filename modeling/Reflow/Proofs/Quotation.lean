import Mathlib.Data.Nat.Digits.Defs
import Reflow.Proofs.Reading
import Reflow.Text.Quoted

/-!
# Quoted texts are told apart

A quoted text is read back character by character: a backslash begins an escape sequence, and what
comes after it says how long the sequence is.  The quote in use stands for itself nowhere inside, so
it is clear where the text ends, whatever comes after it.  Which characters count as printable makes
no difference.

* `Text.hexValue`, `hexValue_hexDigits`   digits of a fixed width, and the number they stand for;
* `Text.unescape`, `unescape_escaped`     the first character of a quoted text;
* `Text.quotedChars_inj`                  two texts that are quoted alike are the same.
-/

namespace Reflow.Text

/-! ## digits of a fixed width -/

def digitValue (c : Char) : Nat := if c.isDigit then c.toNat - 48 else c.toNat - 87

/-- the number that hexadecimal digits stand for -/
def hexValue (cs : List Char) : Nat := cs.foldl (fun value c => 16 * value + digitValue c) 0

theorem digitValue_digitChar : ∀ digit < 16, digitValue digit.digitChar = digit := by decide

theorem hexValue_concat (cs : List Char) (c : Char) :
    hexValue (cs ++ [c]) = 16 * hexValue cs + digitValue c := by
  simp [hexValue]

theorem length_hexDigits {width n : Nat} (hwidth : 0 < width) (h : n < 16 ^ width) :
    (hexDigits width n).length = width := by
  have hlength := Nat.toDigits_length 16 n width hwidth h
  simp only [hexDigits, List.length_append, List.length_replicate]
  omega

/-- the last digit comes behind the digits of what it leaves -/
theorem hexDigits_succ {width : Nat} (hwidth : 0 < width) (n : Nat) :
    hexDigits (width + 1) n = hexDigits width (n / 16) ++ [(n % 16).digitChar] := by
  by_cases h : n < 16
  · -- a single digit, and zeros in front of it
    have hzero : n / 16 = 0 := Nat.div_eq_of_lt h
    have hwidth' : width = width - 1 + 1 := by omega
    rw [hzero, Nat.mod_eq_of_lt h, hexDigits, hexDigits, Nat.toDigits_of_lt_base h,
      Nat.toDigits_zero]
    show List.replicate (width + 1 - 1) '0' ++ _ = List.replicate (width - 1) '0' ++ ['0'] ++ _
    rw [Nat.add_sub_cancel, ← List.replicate_succ', ← hwidth']
  · rw [hexDigits, hexDigits, Nat.toDigits_of_base_le (by decide) (by omega), List.length_append,
      List.append_assoc]
    show List.replicate (width + 1 - (_ + 1)) '0' ++ _ = _
    rw [Nat.add_sub_add_right]

theorem hexValue_hexDigits {width n : Nat} (hwidth : 0 < width) (h : n < 16 ^ width) :
    hexValue (hexDigits width n) = n := by
  induction width generalizing n with
  | zero => omega
  | succ width ih =>
    by_cases hzero : width = 0
    · subst hzero
      have hn : n < 16 := by simpa using h
      have hdigits : hexDigits 1 n = [] ++ [n.digitChar] := by
        rw [hexDigits, Nat.toDigits_of_lt_base hn]
        rfl
      rw [zero_add, hdigits, hexValue_concat, digitValue_digitChar n hn]
      exact Nat.zero_add n
    · have hpos : 0 < width := Nat.pos_of_ne_zero hzero
      have hrest : n / 16 < 16 ^ width := by
        rw [Nat.div_lt_iff_lt_mul (by decide), ← Nat.pow_succ]
        exact h
      have hdigit : n % 16 < 16 := Nat.mod_lt n (by decide)
      rw [hexDigits_succ hpos, hexValue_concat, ih hpos hrest, digitValue_digitChar _ hdigit]
      omega

/-! ## escape sequences -/

/-- the character that the first `width` digits stand for, and what comes after them -/
def numbered (width : Nat) (cs : List Char) : Char × List Char :=
  (Char.ofNat (hexValue (cs.take width)), cs.drop width)

/-- what comes after a backslash: the character it stands for, and the rest -/
def unescapeMark : List Char → Option (Char × List Char)
  | [] => none
  | mark :: cs =>
    if mark = 'n' then some ('\n', cs)
    else if mark = 'r' then some ('\r', cs)
    else if mark = 't' then some ('\t', cs)
    else if mark = 'x' then some (numbered 2 cs)
    else if mark = 'u' then some (numbered 4 cs)
    else if mark = 'U' then some (numbered 8 cs)
    else some (mark, cs)

/-- the first character of what stands between quotes, and the rest -/
def unescape : List Char → Option (Char × List Char)
  | [] => none
  | c :: cs => if c = '\\' then unescapeMark cs else some (c, cs)

theorem numbered_hexDigits {width : Nat} {c : Char} (hwidth : 0 < width)
    (h : c.toNat < 16 ^ width) (cs : List Char) :
    numbered width (hexDigits width c.toNat ++ cs) = (c, cs) := by
  have hlength := length_hexDigits hwidth h
  rw [numbered, List.take_left' hlength, List.drop_left' hlength, hexValue_hexDigits hwidth h,
    Char.ofNat_toNat]

variable {printable : Char → Bool}

theorem quoteMark_cases (cs : List Char) : quoteMark cs = '"' ∨ quoteMark cs = '\x27' := by
  unfold quoteMark
  split
  · exact .inl rfl
  · exact .inr rfl

/-- an escape sequence is read as the character it is written for -/
theorem unescape_escaped {mark : Char} (hmark : mark = '"' ∨ mark = '\x27') (c : Char)
    (cs : List Char) : unescape (escaped printable mark c ++ cs) = some (c, cs) := by
  unfold escaped
  split
  · next h =>
    have hc : c = '"' ∨ c = '\x27' ∨ c = '\\' := by
      simp only [Bool.or_eq_true, beq_iff_eq] at h
      rcases h with rfl | rfl
      · rcases hmark with rfl | rfl <;> simp
      · simp
    rcases hc with rfl | rfl | rfl <;> rfl
  split
  · next h => rw [beq_iff_eq.mp h]; rfl
  split
  · next h => rw [beq_iff_eq.mp h]; rfl
  split
  · next h => rw [beq_iff_eq.mp h]; rfl
  split
  · next hplain _ _ _ _ =>
    have hc : c ≠ '\\' := by
      rintro rfl
      simp at hplain
    exact if_neg hc
  split
  · next h =>
    have hdigits : numbered 2 (hexDigits 2 c.toNat ++ cs) = (c, cs) :=
      numbered_hexDigits (by decide) h cs
    exact congrArg some hdigits
  split
  · next h =>
    have hdigits : numbered 4 (hexDigits 4 c.toNat ++ cs) = (c, cs) :=
      numbered_hexDigits (by decide) h cs
    exact congrArg some hdigits
  · have hc : c.toNat < 16 ^ 8 := c.val.toNat_lt
    have hdigits : numbered 8 (hexDigits 8 c.toNat ++ cs) = (c, cs) :=
      numbered_hexDigits (by decide) hc cs
    exact congrArg some hdigits

/-- a character is not written so that it looks like the quote in use -/
theorem escaped_ne_mark {mark : Char} (hmark : mark = '"' ∨ mark = '\x27') (c : Char)
    (cs ds : List Char) : mark :: ds ≠ escaped printable mark c ++ cs := by
  intro heq
  have hread : unescape (escaped printable mark c ++ cs) = some (c, cs) :=
    unescape_escaped hmark c cs
  have hne : mark ≠ '\\' := by rcases hmark with rfl | rfl <;> decide
  rw [← heq, unescape, if_neg hne] at hread
  -- then it would be the quote, which is written with a backslash
  obtain ⟨rfl, rfl⟩ := Prod.mk.inj (Option.some.inj hread)
  rw [escaped, if_pos (by simp)] at heq
  exact hne (List.cons.inj heq).1

/-! ## quoted texts -/

theorem escaped_inj {mark : Char} (hmark : mark = '"' ∨ mark = '\x27') {c d : Char}
    {r r' : List Char} (h : escaped printable mark c ++ r = escaped printable mark d ++ r') :
    c = d ∧ r = r' := by
  have hread := congrArg unescape h
  rw [unescape_escaped hmark, unescape_escaped hmark] at hread
  exact Prod.mk.inj (Option.some.inj hread)

/-- a quoted text tells the text, and what comes after it -/
theorem quotedChars_inj {cs ds r r' : List Char}
    (h : quotedChars cs printable ++ r = quotedChars ds printable ++ r') : cs = ds ∧ r = r' := by
  unfold quotedChars at h
  simp only [List.cons_append, List.append_assoc] at h
  obtain ⟨hquote, hrest⟩ := List.cons.inj h
  rw [← hquote] at hrest
  have hmark := quoteMark_cases cs
  generalize quoteMark cs = mark at hmark hrest
  have hend (r : List Char) (c : Char) (_ : True) (t : List Char) (_ : True) :
      mark :: r ≠ escaped printable mark c ++ t := escaped_ne_mark hmark c t r
  have hread (c d : Char) (_ : True) (s s' : List Char) (_ _ : True)
      (heq : escaped printable mark c ++ s = escaped printable mark d ++ s') : c = d ∧ s = s' :=
    escaped_inj hmark heq
  obtain ⟨hmap, hafter⟩ := flatMap_inj (e := id) (Q := fun _ => True) (F := fun _ => True)
    (fun _ _ _ => trivial) trivial trivial (hend r) (hend r') (fun c _ => ⟨trivial, hread c⟩)
    (fun _ _ => trivial) hrest
  rw [List.map_id, List.map_id] at hmap
  exact ⟨hmap, (List.cons.inj hafter).2⟩

end Reflow.Text
