import Reflow.Proofs.SourceOrder
import Reflow.Proofs.TextLines

/-!
# Offsets are places of bytes

The lines of a text lie end to end in its UTF-8 encoding.  So the place where a line starts is the
number of bytes of the lines before it, and a column in bytes, added to that, is the place of the
byte that stands there.

* `Text.bytes`               the bytes of a text;
* `Text.lineStart`           the number of bytes before a line;
* `Text.lineStarts_eq`       these numbers, and that of all bytes, are where lines start;
* `Text.bytes_split`         the bytes before, in and behind a line;
* `Text.lineStart_lt`        bytes of later lines come later;
* `Position.offset_ofByte`   the offset of the position of a byte;
* `Position.offset_index`    so offsets are places of bytes, in the order of the text.
-/

namespace Reflow

namespace Text

/-! ## bytes -/

/-- the bytes of a text in UTF-8 -/
def bytes (cs : List Char) : List UInt8 := cs.flatMap String.utf8EncodeChar

theorem bytes_append (cs ds : List Char) : bytes (cs ++ ds) = bytes cs ++ bytes ds :=
  List.flatMap_append

theorem length_bytes (cs : List Char) : (bytes cs).length = byteLength cs := by
  induction cs with
  | nil => rfl
  | cons c cs ih =>
    rw [bytes, List.flatMap_cons, List.length_append, String.length_utf8EncodeChar, byteLength,
      ← ih]
    rfl

theorem bytes_toList (s : String) : bytes s.toList = s.toUTF8.data.toList := by
  rw [String.toUTF8_eq_toByteArray, ← String.utf8Encode_toList, List.utf8Encode,
    List.toList_data_toByteArray]
  rfl

/-! ## the starts of lines -/

/-- the number of bytes before a line, lines counted from zero -/
def lineStart (ls : List (List Char)) (i : Nat) : Nat := (bytes (ls.take i).flatten).length

theorem lineStart_cons (line : List Char) (ls : List (List Char)) (i : Nat) :
    lineStart (line :: ls) (i + 1) = (bytes line).length + lineStart ls i := by
  rw [lineStart, List.take_succ_cons, List.flatten_cons, bytes_append, List.length_append]
  rfl

theorem startsFrom_eq (start : Nat) (ls : List (List Char)) :
    startsFrom start ls = (List.range (ls.length + 1)).map (start + lineStart ls ·) := by
  induction ls generalizing start with
  | nil => rfl
  | cons line ls ih =>
    have hrange : List.range (ls.length + 1 + 1) = 0 :: (List.range (ls.length + 1)).map Nat.succ :=
      List.range_succ_eq_map
    rw [startsFrom, ih, List.length_cons, hrange, List.map_cons, List.map_map]
    refine congrArg (start :: ·) (List.map_congr_left fun i _ => ?_)
    show start + byteLength line + lineStart ls i = start + lineStart (line :: ls) (i + 1)
    rw [lineStart_cons, length_bytes, Nat.add_assoc]

theorem lineStarts_eq (text : List Char) :
    lineStarts text = (List.range ((lines text).length + 1)).map (lineStart (lines text)) := by
  rw [lineStarts, startsFrom_eq]
  simp only [Nat.zero_add]

theorem lineStarts_getElem? {text : List Char} {i : Nat} (h : i ≤ (lines text).length) :
    (lineStarts text)[i]? = some (lineStart (lines text) i) := by
  rw [lineStarts_eq, List.getElem?_map, List.getElem?_range (Nat.lt_succ_of_le h), Option.map_some]

/-! ## the bytes of a line -/

section
variable {ls : List (List Char)} {i : Nat} {line : List Char}

theorem bytes_split (h : ls[i]? = some line) :
    bytes ls.flatten =
      bytes (ls.take i).flatten ++ (bytes line ++ bytes (ls.drop (i + 1)).flatten) := by
  obtain ⟨hi, hline⟩ := List.getElem?_eq_some_iff.mp h
  have hsplit : ls = ls.take i ++ line :: ls.drop (i + 1) := by
    rw [← hline, ← List.drop_eq_getElem_cons hi, List.take_append_drop]
  calc bytes ls.flatten
      = bytes (ls.take i ++ line :: ls.drop (i + 1)).flatten := by rw [← hsplit]
    _ = _ := by rw [List.flatten_append, List.flatten_cons, bytes_append, bytes_append]

/-- the byte at a place of a line stands in the text behind the bytes of the lines before -/
theorem bytes_getElem? (h : ls[i]? = some line) {c : Nat} (hc : c < (bytes line).length) :
    (bytes ls.flatten)[lineStart ls i + c]? = (bytes line)[c]? := by
  rw [bytes_split h, lineStart, List.getElem?_append_right (Nat.le_add_right _ _),
    Nat.add_sub_cancel_left, List.getElem?_append_left hc]

/-- the bytes of a line come before those of all later lines -/
theorem lineStart_lt (h : ls[i]? = some line) {j : Nat} (hij : i < j) :
    lineStart ls i + (bytes line).length ≤ lineStart ls j := by
  obtain ⟨hi, hline⟩ := List.getElem?_eq_some_iff.mp h
  have htake : ls.take (i + 1) = ls.take i ++ [line] := by
    rw [List.take_add_one, h]
    rfl
  obtain ⟨later, hlater⟩ := List.take_prefix_take_left (l := ls) hij
  rw [lineStart, lineStart, ← hlater, htake]
  simp only [List.flatten_append, List.flatten_singleton, bytes_append, List.length_append]
  omega

end

end Text

open Text

namespace Source

/-! ## positions -/

/-- the position of a byte: positions count lines from one, and columns from zero -/
def Position.ofByte (i c : Nat) : Position := ⟨some (i + 1), c⟩

theorem Position.offset_ofByte {text : String} {i : Nat} (h : i ≤ (lines text.toList).length)
    (c : Nat) :
    (ofByte i c).offset (startsOf text) = (lineStart (lines text.toList) i + c : Nat) := by
  have hline : ((i : Int) + 1 - 1).toNat = i := by omega
  have hstart : (startsOf text)[i]? = some (lineStart (lines text.toList) i : Int) := by
    rw [startsOf, List.getElem?_map, lineStarts_getElem? h]
    rfl
  show (if (0 : Int) < i + 1 then _ else _) = _
  rw [if_pos (by omega), hline, hstart, Int.natCast_add]
  rfl

/-- **Offsets are places of bytes.**  A text can be cut into lines in one way.  There is one more
start than there are lines: each start is the number of bytes before its line, and the last one is
the number of all bytes.  The offset of the position of a byte is the place of that byte in the
UTF-8 encoding of the text, and of two such offsets that one is less which is on an earlier line, or
further left on the same one. -/
theorem Position.offset_index (text : String) : ∃ ls,
    (∀ ls', Cut text.toList ls' ↔ ls' = ls) ∧
    (lineStarts text.toList).length = ls.length + 1 ∧
    (∀ i ≤ ls.length, (lineStarts text.toList)[i]? = some (bytes (ls.take i).flatten).length) ∧
    (lineStarts text.toList).getLast? = some text.toUTF8.size ∧
    (∀ i line, ls[i]? = some line → ∀ c < (bytes line).length, ∃ k : Nat,
      (ofByte i c).offset (startsOf text) = k ∧ k = (bytes (ls.take i).flatten).length + c ∧
        text.toUTF8.data[k]? = (bytes line)[c]?) ∧
    ∀ i₁ line₁ i₂ line₂, ls[i₁]? = some line₁ → ls[i₂]? = some line₂ →
      ∀ c₁ < (bytes line₁).length, ∀ c₂ < (bytes line₂).length,
        ((ofByte i₁ c₁).offset (startsOf text) < (ofByte i₂ c₂).offset (startsOf text) ↔
          i₁ < i₂ ∨ i₁ = i₂ ∧ c₁ < c₂) := by
  have hlength : (lineStarts text.toList).length = (lines text.toList).length + 1 := by
    rw [lineStarts_eq, List.length_map, List.length_range]
  have hbytes : text.toUTF8.data.toList = bytes (lines text.toList).flatten := by
    rw [lines_flatten, bytes_toList]
  refine ⟨lines text.toList, cut_iff text.toList, hlength, fun i hi => lineStarts_getElem? hi, ?_,
    ?_, ?_⟩
  · rw [List.getLast?_eq_getElem?, hlength, Nat.add_sub_cancel, lineStarts_getElem? (Nat.le_refl _),
      lineStart, List.take_length, ← hbytes]
    rfl
  · intro i line hline c hc
    obtain ⟨hi, -⟩ := List.getElem?_eq_some_iff.mp hline
    refine ⟨lineStart (lines text.toList) i + c, offset_ofByte hi.le c, rfl, ?_⟩
    rw [← Array.getElem?_toList, hbytes, bytes_getElem? hline hc]
  · intro i₁ line₁ i₂ line₂ h₁ h₂ c₁ hc₁ c₂ hc₂
    obtain ⟨hi₁, -⟩ := List.getElem?_eq_some_iff.mp h₁
    obtain ⟨hi₂, -⟩ := List.getElem?_eq_some_iff.mp h₂
    rw [offset_ofByte hi₁.le, offset_ofByte hi₂.le, Int.ofNat_lt]
    rcases Nat.lt_trichotomy i₁ i₂ with h | rfl | h
    · have hle := lineStart_lt h₁ h
      omega
    · omega
    · have hle := lineStart_lt h₂ h
      omega

/-- three lines with three endings, and a character of two bytes -/
theorem Position.offset_index_mixed :
    let text := "aé\r\nb\rc"
    let ls := lines text.toList
    ls[0]? = some ['a', 'é', '\r', '\n'] ∧ ls[2]? = some ['c'] ∧
      (ofByte 2 0).offset (startsOf text) = 7 ∧ text.toUTF8.data[7]? = some 99 ∧
      (ofByte 0 4).offset (startsOf text) < (ofByte 2 0).offset (startsOf text) := by
  intro text ls
  have hfirst : ls[0]? = some ['a', 'é', '\r', '\n'] := by decide
  have hlast : ls[2]? = some ['c'] := by decide
  obtain ⟨ls', hcut, -, -, -, hbyte, horder⟩ := offset_index text
  obtain rfl : ls = ls' := (hcut ls).mp (cut_lines text.toList)
  obtain ⟨k, hoffset, hk, hc⟩ := hbyte 2 ['c'] hlast 0 (by decide)
  obtain rfl : k = 7 := hk.trans (by decide)
  refine ⟨hfirst, hlast, hoffset, hc.trans rfl, ?_⟩
  exact (horder 0 _ 2 _ hfirst hlast 4 (by decide) 0 (by decide)).mpr (.inl (by decide))

end Source

end Reflow
