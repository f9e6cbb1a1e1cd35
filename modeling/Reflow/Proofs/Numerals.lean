import Reflow.Number.Basic

/-!
# The characters of numbers

A number is written with digits, signs, points and a few letters, and a complex one also with
brackets.  There is always something written.

* `IsNumeral`, `Numerals`   these characters, and texts that hold no others;
* `Binary64.numerals_text`  floating point numbers, `Number.numerals_int`  integers;
* `Number.text?_chars`      numbers of all kinds.
-/

namespace Reflow

def numeralMarks : List Char := ['+', '-', '.', 'a', 'e', 'f', 'i', 'j', 'n']

def IsNumeral (c : Char) : Prop := c.isDigit = true ∨ c ∈ numeralMarks

def Numerals (cs : List Char) : Prop := ∀ c ∈ cs, IsNumeral c

namespace Numerals
variable {c : Char} {cs ds : List Char}

theorem nil : Numerals [] := List.forall_mem_nil _

theorem cons (hc : IsNumeral c) (hcs : Numerals cs) : Numerals (c :: cs) :=
  List.forall_mem_cons.mpr ⟨hc, hcs⟩

theorem append (hcs : Numerals cs) (hds : Numerals ds) : Numerals (cs ++ ds) :=
  List.forall_mem_append.mpr ⟨hcs, hds⟩

theorem of_subset (h : Numerals ds) (hsub : cs ⊆ ds) : Numerals cs := fun c hc => h c (hsub hc)

theorem digits (n : Nat) : Numerals (decimalDigits n) :=
  fun _ hc => .inl (Nat.isDigit_of_mem_toDigits (by decide) (by decide) hc)

theorem zeros (n : Nat) : Numerals (List.replicate n '0') := by
  intro c hc
  rw [List.eq_of_mem_replicate hc]
  exact .inl rfl

theorem sign (negative : Bool) : Numerals (if negative then ['-'] else []) := by
  cases negative with
  | false => exact nil
  | true => exact cons (.inr (by decide)) nil

end Numerals

open Numerals

namespace Binary64

theorem numerals_exponentText (e : Int) : Numerals (exponentText e) := by
  have hdigits := (zeros (2 - (decimalDigits e.natAbs).length)).append (digits e.natAbs)
  rw [exponentText]
  split
  · exact cons (.inr (by decide)) hdigits
  · exact cons (.inr (by decide)) hdigits

theorem numerals_placed {cs : List Char} (h : Numerals cs) (leading : Int) (pointZero : Bool) :
    Numerals (placed cs leading pointZero) := by
  have htake (n : Nat) : Numerals (cs.take n) := h.of_subset (List.take_subset n cs)
  have hdrop (n : Nat) : Numerals ('.' :: cs.drop n) :=
    cons (.inr (by decide)) (h.of_subset (List.drop_subset n cs))
  rw [placed]
  split
  · refine ((htake 1).append ?_).append (cons (.inr (by decide)) (numerals_exponentText leading))
    split
    · exact nil
    · exact hdrop 1
  · split
    · exact cons (.inl rfl) (cons (.inr (by decide)) ((zeros _).append h))
    · dsimp only
      split
      · refine (h.append (zeros _)).append ?_
        cases pointZero with
        | false => exact nil
        | true => exact cons (.inr (by decide)) (cons (.inl rfl) nil)
      · exact (htake _).append (hdrop _)

theorem placed_ne_nil (cs : List Char) (leading : Int) : placed cs leading true ≠ [] := by
  rw [placed]
  split
  · simp
  · split
    · simp
    · dsimp only
      split <;> simp

theorem numerals_scientific (count : Nat) (power : Int) : Numerals (scientific count power).1 := by
  intro c hc
  have hc := (List.dropWhile_sublist _).subset (List.mem_reverse.mp hc)
  exact digits count c (List.mem_reverse.mp hc)

theorem numerals_text (x : Binary64) (pointZero : Bool) : Numerals (x.text pointZero).toList := by
  unfold Binary64.text
  rw [String.toList_ofList]
  have hmarks {cs : List Char} (h : cs ⊆ numeralMarks) : Numerals cs := fun c hc => .inr (h hc)
  have hnan : Numerals ['n', 'a', 'n'] := hmarks (by decide)
  have hinfinity : Numerals ['i', 'n', 'f'] := hmarks (by decide)
  cases x with
  | nan => exact hnan
  | infinity negative => exact (sign negative).append hinfinity
  | finite negative significand exponent =>
    refine (sign negative).append ?_
    split
    · exact numerals_placed (zeros 1) 0 pointZero
    · let decimal := (Binary64.finite false significand exponent).shortest
      exact numerals_placed (numerals_scientific decimal.1 decimal.2) _ pointZero

theorem text_ne_nil (x : Binary64) : (x.text true).toList ≠ [] := by
  unfold Binary64.text
  rw [String.toList_ofList]
  cases x with
  | nan => exact List.cons_ne_nil _ _
  | infinity negative => exact List.append_ne_nil_of_right_ne_nil _ (List.cons_ne_nil _ _)
  | finite negative significand exponent =>
    apply List.append_ne_nil_of_right_ne_nil
    split
    · exact placed_ne_nil _ _
    · exact placed_ne_nil _ _

end Binary64

namespace Number

theorem int_cases (n : Int) : ∃ m sign, (toString n).toList = sign ++ decimalDigits m ∧
    Numerals sign := by
  cases n with
  | ofNat m => exact ⟨m, [], String.toList_ofList, nil⟩
  | negSucc m =>
    refine ⟨m + 1, ['-'], ?_, cons (.inr (by decide)) nil⟩
    show ("-" ++ String.ofList (decimalDigits (m + 1))).toList = _
    rw [String.toList_append, String.toList_ofList (l := decimalDigits (m + 1))]
    rfl

theorem numerals_int (n : Int) : Numerals (toString n).toList := by
  obtain ⟨m, sign, hn, hsign⟩ := int_cases n
  rw [hn]
  exact hsign.append (digits m)

theorem int_ne_nil (n : Int) : (toString n).toList ≠ [] := by
  obtain ⟨m, sign, hn, -⟩ := int_cases n
  rw [hn]
  exact List.append_ne_nil_of_right_ne_nil _ Nat.toDigits_ne_nil

/-- a complex number is its imaginary part, or a sum between brackets -/
theorem complexText_cases (re im : Binary64) :
    (∃ cs, (complexText re im).toList = cs ++ ['j'] ∧ Numerals cs) ∨
      ∃ cs, (complexText re im).toList = '(' :: (cs ++ [')']) ∧ Numerals cs := by
  have him := im.numerals_text false
  have himaginary : Numerals ((im.text false).toList ++ ['j']) :=
    him.append (cons (.inr (by decide)) nil)
  rw [complexText]
  split
  · exact .inl ⟨_, String.toList_append, him⟩
  · let sign := if im.isNegative then "" else "+"
    have hsign : Numerals sign.toList := by
      dsimp only [sign]
      split
      · exact nil
      · exact cons (.inr (by decide)) nil
    refine .inr ⟨_, ?_, (re.numerals_text false).append (hsign.append himaginary)⟩
    show ("(" ++ re.text false ++ sign ++ (im.text false ++ "j") ++ ")").toList = _
    simp only [String.toList_append, List.append_assoc]
    rfl

theorem text?_chars {n : Number} {t : String} (h : n.text? = some t) :
    t.toList ≠ [] ∧ ∀ c ∈ t.toList, IsNumeral c ∨ c ∈ ['(', ')'] := by
  cases n with
  | int n =>
    rw [text?] at h
    split at h
    · cases h
      exact ⟨int_ne_nil n, fun c hc => .inl (numerals_int n c hc)⟩
    · cases h
  | float x =>
    cases h
    exact ⟨x.text_ne_nil, fun c hc => .inl (x.numerals_text true c hc)⟩
  | complex re im =>
    cases h
    rcases complexText_cases re im with ⟨cs, ht, hcs⟩ | ⟨cs, ht, hcs⟩
    · have himaginary : Numerals (cs ++ ['j']) := hcs.append (cons (.inr (by decide)) nil)
      rw [ht]
      exact ⟨by simp, fun c hc => .inl (himaginary c hc)⟩
    · rw [ht]
      refine ⟨List.cons_ne_nil _ _, List.forall_mem_cons.mpr ⟨.inr (by decide), ?_⟩⟩
      exact List.forall_mem_append.mpr ⟨fun c hc => .inl (hcs c hc), by simp⟩

end Number

end Reflow
