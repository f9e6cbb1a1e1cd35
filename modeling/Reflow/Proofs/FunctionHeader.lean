import Reflow.Proofs.Blocks
import Reflow.Proofs.Inline
import Reflow.Proofs.Supported

/-!
# Function headers

The header of a function is one line if it fits on the page behind its indentation, with the colon
at its end.  If it does not, each parameter has a line of its own.

* `headerLines`             the lines of a header, told from the fragments of its parameter list;
* `Doc.lay_fragments`       fragments one below the other, each but the last with its comma;
* `Doc.lay_header`          a header laid out at a margin;
* `Block.function_header`   the header of a function, in any block of a tree.
-/

namespace Reflow

open Doc

/-! ## the lines of a header -/

/-- parameters, one on each line; without any there is an empty line -/
def parameterLines (indentation : List Char) : List (List Char) → List (List Char)
  | [] => [[]]
  | [p] => [indentation ++ p]
  | p :: ps => (indentation ++ p ++ [',']) :: parameterLines indentation ps

/-- a header on one line if it fits, or else on one line for each parameter and two around them -/
def headerLines (o : Options) (level : Nat) (name : String) (ps : List (List Char)) :
    List (List Char) :=
  let margin := List.replicate (level * o.tabWidth) ' '
  let opening := margin ++ ("def ".toList ++ name.toList ++ ['('])
  let whole := opening ++ (Node.commas ps ++ [')', ':'])
  if whole.length ≤ o.printWidth then [whole]
  else opening :: (parameterLines (List.replicate ((level + 1) * o.tabWidth) ' ') ps ++
    [margin ++ [')', ':']])

theorem parameterLines_cons (indentation newline p : List Char) (ps : List (List Char)) :
    (parameterLines indentation (p :: ps)).flatMap (· ++ newline) =
      indentation ++ p ++ ps.flatMap (fun p => ',' :: (newline ++ (indentation ++ p))) ++
        newline := by
  induction ps generalizing p with
  | nil => simp [parameterLines]
  | cons q ps ih =>
    rw [parameterLines, List.flatMap_cons, ih, List.flatMap_cons]
    · simp only [List.append_assoc, List.cons_append, List.nil_append]
    · exact nofun

/-! ## laying out -/

theorem Segment.trimmed {cs : List Char} (h : Segment cs) (w : List Char) :
    Page.trimmed (cs.reverse ++ w) = cs.reverse ++ w := by
  obtain ⟨c, hc, hblank⟩ := h.last
  obtain ⟨front, rfl⟩ := List.getLast?_eq_some_iff.mp hc
  rw [List.reverse_concat]
  exact List.dropWhile_cons_of_neg (by rw [← Bool.not_eq_true] at hblank; exact hblank)

namespace Pen
variable {o : Options} {p : Pen}

theorem written_breakLine (h : Page.trimmed p.written = p.written) (level : Nat) :
    (p.breakLine o level).written.reverse =
      p.written.reverse ++ o.endOfLine.newline ++ List.replicate (level * o.tabWidth) ' ' := by
  rw [breakLine, h, List.reverse_append, List.reverse_append, List.reverse_reverse,
    List.reverse_replicate, List.append_assoc]

/-- an empty line has no indentation -/
theorem written_breakLine_breakLine (level level' : Nat) :
    ((p.breakLine o level).breakLine o level').written =
      List.replicate (level' * o.tabWidth) ' ' ++
        (o.endOfLine.newline.reverse ++
          (o.endOfLine.newline.reverse ++ Page.trimmed p.written)) := by
  rw [breakLine, breakLine, Page.trimmed_append (Page.trimmed_newline _ _), trimmed_replicate]
  rfl

end Pen

namespace Doc
variable {o : Options} {es : List Doc}

def comma : Doc := concat [text ", ", softline]

/-- the blank behind a comma is dropped where the line ends -/
theorem lay_fragments (hes : ∀ e ∈ es, e.Worded) (level after : Nat) (p : Pen)
    (hp : Page.trimmed p.written = p.written) :
    let q := layAll o (es.flatMap fun e => [comma, e]) level .broken after p
    Page.trimmed q.written = q.written ∧
      q.written.reverse = p.written.reverse ++ (es.map flatText).flatMap fun cs =>
        ',' :: (o.endOfLine.newline ++ (List.replicate (level * o.tabWidth) ' ' ++ cs)) := by
  induction es generalizing p with
  | nil => exact ⟨hp, (List.append_nil _).symm⟩
  | cons e es ih =>
    obtain ⟨he, hes⟩ := List.forall_mem_cons.mp hes
    have hcomma (after : Nat) : comma.lay o level .broken after p =
        (p.type [',']).breakLine o level := rfl
    have hsharp : Page.trimmed (p.type [',']).written = (p.type [',']).written := rfl
    have hline := Pen.written_breakLine (o := o) hsharp level
    obtain ⟨hlast, hrest⟩ := ih hes (((p.type [',']).breakLine o level).type e.flatText)
      (he.segment.trimmed _)
    have hlay : layAll o ((e :: es).flatMap fun e => [comma, e]) level .broken after p =
        layAll o (es.flatMap fun e => [comma, e]) level .broken after
          (((p.type [',']).breakLine o level).type e.flatText) := by
      rw [List.flatMap_cons, List.cons_append, List.cons_append, List.nil_append, layAll, layAll,
        hcomma, he.texts.lay]
    refine ⟨by rw [hlay]; exact hlast, ?_⟩
    rw [hlay]
    refine hrest.trans ?_
    rw [List.map_cons, List.flatMap_cons, Pen.type, List.reverse_append, List.reverse_reverse,
      hline]
    simp [Pen.type]

/-- the brackets of a parameter list, with its fragments between them -/
def bracketed (es : List Doc) : Doc :=
  concat [text "(", indent (concat [softline, join comma es]), softline, text ")"]

theorem forced_bracketed (hes : ∀ e ∈ es, e.Worded) : (bracketed es).forced = false := by
  have hjoin : (join comma es).forced = false := by
    show forcedAny (es.intersperse comma) = false
    rw [forcedAny_eq, List.any_eq_false]
    intro e he
    rcases mem_intersperse he with rfl | he
    · exact Bool.false_ne_true
    · rw [(hes e he).texts.forced]
      exact Bool.false_ne_true
  simp [bracketed, Doc.forced, forcedAny, softline, hjoin]

theorem flatText_bracketed (es : List Doc) :
    (bracketed es).flatText = '(' :: (Node.commas (es.map flatText) ++ [')']) := by
  have hjoin : (join comma es).flatText = Node.commas (es.map flatText) := by
    rw [join, flatText, flatTexts_eq, List.flatMap_def, map_intersperse]
    rfl
  simp [bracketed, flatText, flatTexts, softline, hjoin]

/-- brackets that are broken: the fragments stand on lines of their own, one level deeper -/
theorem lay_bracketed (hes : ∀ e ∈ es, e.Worded) (level after : Nat) (p : Pen) :
    ((bracketed es).lay o level .broken after p).written.reverse ++ [':'] ++ o.endOfLine.newline =
      p.written.reverse ++ ['('] ++ o.endOfLine.newline ++
        (parameterLines (List.replicate ((level + 1) * o.tabWidth) ' ') (es.map flatText) ++
          [List.replicate (level * o.tabWidth) ' ' ++ [')', ':']]).flatMap
            (· ++ o.endOfLine.newline) := by
  have hopen : Page.trimmed (p.type ['(']).written = (p.type ['(']).written := rfl
  have hopenline := Pen.written_breakLine (o := o) hopen (level + 1)
  cases es with
  | nil =>
    have hlay : (bracketed []).lay o level .broken after p =
      (((p.type ['(']).breakLine o (level + 1)).breakLine o level).type [')'] := rfl
    rw [hlay, Pen.type, Pen.written_breakLine_breakLine, hopen]
    simp [Pen.type, parameterLines]
  | cons e es =>
    obtain ⟨he, hes⟩ := List.forall_mem_cons.mp hes
    let q := (p.type ['(']).breakLine o (level + 1)
    let width := spanAll [softline, text ")"] .broken after
    obtain ⟨hlast, htext⟩ := lay_fragments (o := o) hes (level + 1) width (q.type e.flatText)
      (he.segment.trimmed _)
    have hjoin : (join comma (e :: es)).lay o (level + 1) .broken width q =
        layAll o (es.flatMap fun e => [comma, e]) (level + 1) .broken width
          (q.type e.flatText) := by
      rw [join, intersperse_cons, Doc.lay, layAll, he.texts.lay]
    have hlay : (bracketed (e :: es)).lay o level .broken after p =
        (((join comma (e :: es)).lay o (level + 1) .broken width q).breakLine o level).type
          [')'] := rfl
    have hfirst : (q.type e.flatText).written.reverse = p.written.reverse ++ ['('] ++
        o.endOfLine.newline ++ List.replicate ((level + 1) * o.tabWidth) ' ' ++ e.flatText := by
      rw [Pen.type, List.reverse_append, List.reverse_reverse, hopenline, Pen.type,
        List.reverse_append]
      rfl
    rw [hlay, hjoin, Pen.type, List.reverse_append, Pen.written_breakLine hlast, htext, hfirst,
      List.map_cons, List.flatMap_append, parameterLines_cons]
    simp

/-- the brackets after the name, and the colon that is counted with them -/
theorem lay_header (hes : ∀ e ∈ es, e.Worded) {level : Nat} {above : List Char} {p : Pen}
    (hp : p.AtMargin o level above) (name : String) :
    (((group (bracketed es) false).lay o level .broken 1
      ((p.type "def ".toList).type name.toList)).type [':']).written.reverse ++ o.endOfLine.newline =
      above ++ (headerLines o level name (es.map flatText)).flatMap (· ++ o.endOfLine.newline) := by
  let q := (p.type "def ".toList).type name.toList
  have hforced := forced_bracketed hes
  have hwritten : q.written.reverse =
      above ++ (List.replicate (level * o.tabWidth) ' ' ++ ("def ".toList ++ name.toList)) := by
    simp [q, Pen.type, hp.written]
  have hcolumn : q.column + (bracketed es).span .flat 1 =
      (List.replicate (level * o.tabWidth) ' ' ++ ("def ".toList ++ name.toList ++ ['(']) ++
        (Node.commas (es.map flatText) ++ [')', ':'])).length := by
    rw [(bracketed es).span_flat hforced, flatText_bracketed]
    simp [q, Pen.type, hp.column]
    omega
  by_cases hfits : q.column + (bracketed es).span .flat 1 ≤ o.printWidth
  · have hmode : groupMode o q.column (bracketed es) false .broken 1 = .flat :=
      (groupMode_broken o).mpr ⟨rfl, hfits⟩
    rw [hcolumn] at hfits
    rw [Doc.lay, hmode, (bracketed es).lay_flat hforced, flatText_bracketed, Pen.type,
      List.reverse_append, Pen.type, List.reverse_append, List.reverse_reverse, hwritten]
    simp only [headerLines, if_pos hfits]
    simp
  · have hmode : groupMode o q.column (bracketed es) false .broken 1 = .broken :=
      groupMode_unfitted o hfits
    rw [hcolumn] at hfits
    rw [Doc.lay, hmode, Pen.type, List.reverse_append]
    refine (lay_bracketed hes level 1 q).trans ?_
    rw [hwritten]
    simp only [headerLines, if_neg hfits]
    simp

/-- the body of a function begins on a line of its own, so the header stays as it is -/
theorem lay_function (hes : ∀ e ∈ es, e.Worded) {level : Nat} {above : List Char} {p : Pen}
    (hp : p.AtMargin o level above) (name : String) (ds : List Doc) :
    ∃ written, Page.trimmed written = written ∧
      written.reverse =
        above ++ (headerLines o level name (es.map flatText)).flatMap (· ++ o.endOfLine.newline) ∧
      written <:+ ((concat [text "def ", text name, group (bracketed es) false, text ":",
        Rule.blockDoc ds]).propagateBreaks.lay o level .broken 0 p).written := by
  let header := ((group (bracketed es) false).lay o level .broken 1
    ((p.type "def ".toList).type name.toList)).type [':']
  have hgroup : (group (bracketed es) false).propagateBreaks = group (bracketed es) false :=
    propagateBreaks_unforced _ ((Bool.false_or _).trans (forced_bracketed hes))
  have hlay : (concat [text "def ", text name, group (bracketed es) false, text ":",
      Rule.blockDoc ds]).propagateBreaks.lay o level .broken 0 p =
        (Rule.blockDoc ds).propagateBreaks.lay o level .broken 0 header := by
    rw [propagateBreaks_concat, List.map_cons, List.map_cons, List.map_cons, hgroup]
    rfl
  refine ⟨o.endOfLine.newline.reverse ++ header.written, Page.trimmed_newline _ _, ?_, ?_⟩
  · rw [List.reverse_append, List.reverse_reverse]
    exact lay_header hes hp name
  · rw [hlay, lay_blockDoc]
    refine Pen.keeps_layAll o _ (level + 1) .broken 0 _ _ (Page.trimmed_newline _ _) ?_
    exact List.suffix_append (List.replicate ((level + 1) * o.tabWidth) ' ') _

end Doc

section
variable {ps : List (List Char)} (hps : ∀ p ∈ ps, InLine p)
include hps

theorem inLine_commas : InLine (Node.commas ps) := by
  intro c hc
  obtain ⟨p, hp, hc⟩ := List.mem_flatten.mp hc
  have hcomma : InLine [',', ' '] := by decide
  rcases mem_intersperse hp with rfl | hp
  · exact hcomma c hc
  · exact hps p hp c hc

theorem inLine_parameterLines {indentation : List Char} (hi : InLine indentation) :
    ∀ line ∈ parameterLines indentation ps, InLine line := by
  fun_induction parameterLines indentation ps with
  | case1 => exact List.forall_mem_singleton.mpr (List.forall_mem_nil _)
  | case2 p =>
    have hp := List.forall_mem_singleton.mp hps
    exact List.forall_mem_singleton.mpr (hi.append hp)
  | case3 p ps _ ih =>
    obtain ⟨hp, hps⟩ := List.forall_mem_cons.mp hps
    have hcomma : InLine [','] := by decide
    exact List.forall_mem_cons.mpr ⟨(hi.append hp).append hcomma, ih hps⟩

/-- no line ends inside a line of a header -/
theorem inLine_headerLines (o : Options) (level : Nat) {name : String} (hname : IsWord name.toList) :
    ∀ line ∈ headerLines o level name ps, InLine line := by
  have hspaces (n : Nat) : InLine (List.replicate n ' ') := by
    intro c hc
    rw [List.eq_of_mem_replicate hc]
    rfl
  have hdef : InLine "def ".toList := by decide
  have hopen : InLine ['('] := by decide
  have hclose : InLine [')', ':'] := by decide
  have hopening := (hspaces (level * o.tabWidth)).append
    ((hdef.append hname.segment.line).append hopen)
  rw [headerLines]
  split
  · exact List.forall_mem_singleton.mpr (hopening.append ((inLine_commas hps).append hclose))
  · refine List.forall_mem_cons.mpr ⟨hopening, List.forall_mem_append.mpr ⟨?_, ?_⟩⟩
    · exact inLine_parameterLines hps (hspaces _)
    · exact List.forall_mem_singleton.mpr ((hspaces _).append hclose)

end

/-- **Function headers.**  Wherever a function stands, what is printed above its header does not
depend on it.  Its header is one line if that fits on the page, and otherwise the broken one, with
the fragments of the parameter list one below the other.  There is a text if the tree comes from a
module in which everything can be printed. -/
theorem Block.function_header (o : Options) (B : Block) :
    ∃ above : List Char, (above = [] ∨ o.endOfLine.newline <:+ above) ∧
      ∀ (offset : Int) (name : String) (params : Node) (body : List Node),
        IsWord name.toList → params.InlineParameters →
        (∀ (m : Source.Module) (source : String), m.Regular source → m.Short → m.Supported →
          m.lower source = B.fill (.function offset name params body) →
          ∃ d, (B.fill (.function offset name params body)).print = .ok d) ∧
        ∀ d, (B.fill (.function offset name params body)).print = .ok d →
          ∃ es, params.fragments = .ok es ∧
            (∀ line ∈ headerLines o B.depth name (es.map flatText), InLine line) ∧
            above ++ (headerLines o B.depth name (es.map flatText)).flatMap
              (· ++ o.endOfLine.newline) <+: d.layout o := by
  obtain ⟨q, F, ⟨above, hq⟩, hF, hlay⟩ := B.lay_around o
  refine ⟨above, hq.ends, ?_⟩
  intro offset name params body hname hparams
  refine ⟨?_, ?_⟩
  · intro m source hr hi hs htree
    rw [← htree, Source.Module.print_lower hr]
    exact (Source.Module.settles_printed hr hi).result hs
  · intro d hd
    obtain ⟨hfunction, rfl⟩ := B.print_fill hd
    obtain ⟨p, ds, hp, -, hdoc⟩ := Rule.function_ok hfunction
    obtain ⟨es, hes, rfl, hworded⟩ := hparams.fragments_ok (Node.present_eq_ok hp)
    refine ⟨es, hes, ?_, ?_⟩
    · refine inLine_headerLines (List.forall_mem_map.mpr fun e he => ?_) o B.depth hname
      exact (hworded e he).segment.line
    · obtain ⟨written, htrimmed, htext, hsuffix⟩ := lay_function hworded hq name ds
      rw [← htext, layout_eq_lay, hlay, hdoc, List.reverse_prefix]
      exact hF written _ htrimmed hsuffix

/-! ### a method -/

namespace Source

/-- `class C:` and on the next line ` def f(self, /, a="s", *, b): x` -/
def methodText : String := "class C:\n def f(self, /, a=\"s\", *, b): x\n"

def methodModule : Module where
  body := [.classDef ⟨some 1, 0⟩ "C" false false false []
    [.function ⟨some 2, 1⟩ "f" false false false
      (.mk [{ pos := ⟨some 2, 7⟩, name := "self" }] [{ pos := ⟨some 2, 16⟩, name := "a" }] none
        [{ pos := ⟨some 2, 26⟩, name := "b" }] [none] none [.constant ⟨some 2, 18⟩ (.text "s")])
      [.expression ⟨some 2, 30⟩ (.ident ⟨some 2, 30⟩ "x")]]]

end Source

/-- the parameters of the method -/
def methodParameters : Node :=
  .parameters 0 [.parameter 16 "self"] [.parameter 25 "a"] [.string 27 "s"] .nothing
    [.parameter 35 "b"] [] .nothing

theorem inlineParameters_method : methodParameters.InlineParameters := by
  have hname {s : String} (h : Node.IsName s) : IsWord s.toList := h.word
  have htext : InLine "s".toList := by decide
  refine Node.forall_children_parameters.mpr ?_
  simp only [Node.nodes, Node.nothing, List.forall_mem_singleton, Node.Inline]
  exact ⟨trivial, trivial, hname (by decide), hname (by decide), htext, hname (by decide),
    List.forall_mem_nil _⟩

/-- a method whose header fits exactly, and the same on a page that is one column narrower -/
theorem Block.function_header_method :
    let B : Block := .inside (.module 0 [] []) (.classDef 0 "C" []) [] []
    let method : Node := .function 10 "f" methodParameters [.expression 39 (.ident 39 "x")]
    ∃ d, (B.fill method).print = .ok d ∧
      (∃ above, above ++ "    def f(self, /, a=\"s\", *, b):\n".toList <+:
        d.layout { printWidth := 32 }) ∧
      ∃ above, above ++ ("    def f(\n        self,\n        /,\n        a=\"s\",\n" ++
        "        *,\n        b\n    ):\n").toList <+: d.layout { printWidth := 31 } := by
  intro B method
  have hname : IsWord "f".toList := Node.IsName.word (by decide)
  have hfragments : methodParameters.fragments = .ok [concat [text "self"], text "/",
      concat [text "a", text "=", text "\"s\""], text "*", concat [text "b"]] := rfl
  obtain ⟨above, -, h⟩ := Block.function_header { printWidth := 32 } B
  obtain ⟨above', -, h'⟩ := Block.function_header { printWidth := 31 } B
  obtain ⟨hprint, h⟩ := h 10 "f" methodParameters [.expression 39 (.ident 39 "x")] hname
    inlineParameters_method
  obtain ⟨d, hd⟩ := hprint Source.methodModule Source.methodText (by decide) (by decide) (by decide)
    rfl
  obtain ⟨-, h'⟩ := h' 10 "f" methodParameters [.expression 39 (.ident 39 "x")] hname
    inlineParameters_method
  obtain ⟨es, hes, -, hone⟩ := h d hd
  obtain ⟨es', hes', -, hmore⟩ := h' d hd
  obtain rfl := Except.ok.inj (hfragments.symm.trans hes)
  obtain rfl := Except.ok.inj (hfragments.symm.trans hes')
  exact ⟨d, hd, ⟨above, hone⟩, above', hmore⟩

end Reflow
