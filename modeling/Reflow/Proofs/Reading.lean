import Mathlib.Data.List.Basic
import Mathlib.Data.List.TakeWhile

/-!
# Reading texts from left to right

To see that different things have different texts, two texts are compared from left to right, each
with what follows it.  A part is told apart if it is clear where it ends: by what may follow it.

* `Ends`           what may follow a part;
* `split_inj`      runs of characters of one kind;
* `flatMap_inj`    lists whose items can be read one by one;
* `flatMap_of_intercalate`   lists with separators between the items.
-/

namespace Reflow

/-! ## what follows a part -/

/-- that a text is at its end, or goes on with one of some characters -/
def Ends (stops : List Char) (cs : List Char) : Prop := ∀ c ∈ cs.head?, c ∈ stops

theorem Ends.mono {stops stops' cs : List Char} (hsub : stops ⊆ stops') (h : Ends stops cs) :
    Ends stops' cs := fun c hc => hsub (h c hc)

theorem Ends.cons {stops cs : List Char} {c : Char} (h : c ∈ stops) : Ends stops (c :: cs) := by
  rintro _ ⟨⟩
  exact h

theorem Ends.append {stops cs ds : List Char} (h : Ends stops cs) (h' : Ends stops ds) :
    Ends stops (cs ++ ds) := by
  cases cs with
  | nil => exact h'
  | cons c cs => exact h

theorem Ends.of_append {stops cs ds : List Char} (h : Ends stops (cs ++ ds)) : Ends stops cs := by
  cases cs with
  | nil => exact fun _ hc => by cases hc
  | cons c cs => exact h

theorem Ends.nil {stops : List Char} : Ends stops [] := fun _ hc => by cases hc

theorem Ends.flatMap {α : Type} {stops : List Char} {f : α → List Char} {as : List α}
    (hf : ∀ a ∈ as, Ends stops (f a)) : Ends stops (as.flatMap f) := by
  induction as with
  | nil => exact Ends.nil
  | cons a as ih =>
    obtain ⟨ha, has⟩ := List.forall_mem_cons.mp hf
    rw [List.flatMap_cons]
    exact ha.append (ih has)

/-! ## runs and lists -/

/-- two runs of characters of one kind are the same, if no such character follows -/
theorem split_inj {p : Char → Bool} {cs ds r r' : List Char} (hcs : ∀ c ∈ cs, p c = true)
    (hds : ∀ c ∈ ds, p c = true) (hr : ∀ c ∈ r.head?, p c = false)
    (hr' : ∀ c ∈ r'.head?, p c = false) (h : cs ++ r = ds ++ r') : cs = ds ∧ r = r' := by
  have htake (cs r : List Char) (hcs : ∀ c ∈ cs, p c = true) (hr : ∀ c ∈ r.head?, p c = false) :
      (cs ++ r).takeWhile p = cs := by
    rw [List.takeWhile_append_of_pos hcs]
    cases r with
    | nil => exact List.append_nil cs
    | cons c r =>
      have hc : p c = false := hr c rfl
      rw [List.takeWhile_cons_of_neg (by rw [hc]; exact Bool.false_ne_true), List.append_nil]
  have hsame : cs = ds := by rw [← htake cs r hcs hr, h, htake ds r' hds hr']
  subst hsame
  exact ⟨rfl, List.append_cancel_left h⟩

/-- an item, and then the others, each after a separator -/
theorem intercalate_cons (sep item : List Char) (texts : List (List Char)) :
    sep.intercalate (item :: texts) = item ++ texts.flatMap (sep ++ ·) := by
  induction texts generalizing item with
  | nil => rw [List.intercalate_singleton, List.flatMap_nil, List.append_nil]
  | cons text texts ih =>
    rw [List.intercalate_cons_cons, ih, List.flatMap_cons, List.append_assoc, List.append_assoc]

/-- if two lists, and what follows, give one text, they also do with a separator before each item -/
theorem flatMap_of_intercalate {stops sep r r' : List Char} {xs ys : List (List Char)}
    (hx : ∀ x ∈ xs, ¬ Ends stops x) (hy : ∀ y ∈ ys, ¬ Ends stops y) (hr : Ends stops r)
    (hr' : Ends stops r') (h : sep.intercalate xs ++ r = sep.intercalate ys ++ r') :
    xs.flatMap (sep ++ ·) ++ r = ys.flatMap (sep ++ ·) ++ r' := by
  cases xs with
  | nil =>
    cases ys with
    | nil => exact h
    | cons y ys =>
      rw [intercalate_cons, List.append_assoc, List.intercalate_nil, List.nil_append] at h
      rw [h] at hr
      exact absurd hr.of_append (hy y List.mem_cons_self)
  | cons x xs =>
    cases ys with
    | nil =>
      rw [intercalate_cons, List.append_assoc, List.intercalate_nil, List.nil_append] at h
      rw [← h] at hr'
      exact absurd hr'.of_append (hx x List.mem_cons_self)
    | cons y ys =>
      rw [intercalate_cons, intercalate_cons] at h
      rw [List.flatMap_cons, List.flatMap_cons, List.append_assoc sep, List.append_assoc sep,
        List.append_assoc sep, List.append_assoc sep, h]

/-- lists are the same if their items can be read one by one, and what follows is no further item -/
theorem flatMap_inj {α β : Type} {f : α → List Char} {e : α → β} {Q : α → Prop}
    {F : List Char → Prop} (hF : ∀ x, Q x → ∀ r, F (f x ++ r)) {r r' : List Char} (hr : F r)
    (hr' : F r') (hend : ∀ y, Q y → ∀ t, F t → r ≠ f y ++ t)
    (hend' : ∀ y, Q y → ∀ t, F t → r' ≠ f y ++ t) {xs ys : List α}
    (hx : ∀ x ∈ xs, Q x ∧ ∀ y, Q y → ∀ r r', F r → F r' → f x ++ r = f y ++ r' → e x = e y ∧ r = r')
    (hy : ∀ y ∈ ys, Q y) (h : xs.flatMap f ++ r = ys.flatMap f ++ r') :
    xs.map e = ys.map e ∧ r = r' := by
  -- after an item comes the next one, or what comes after all
  have hrest (xs : List α) (hx : ∀ x ∈ xs, Q x) {r : List Char} (hr : F r) :
      F (xs.flatMap f ++ r) := by
    cases xs with
    | nil => exact hr
    | cons x xs =>
      rw [List.flatMap_cons, List.append_assoc]
      exact hF x (hx x List.mem_cons_self) _
  induction xs generalizing ys with
  | nil =>
    cases ys with
    | nil => exact ⟨rfl, h⟩
    | cons y ys =>
      obtain ⟨hy, hys⟩ := List.forall_mem_cons.mp hy
      rw [List.flatMap_cons, List.append_assoc] at h
      exact absurd h (hend y hy _ (hrest ys hys hr'))
  | cons x xs ih =>
    obtain ⟨⟨hqx, hread⟩, hxs⟩ := List.forall_mem_cons.mp hx
    rw [List.flatMap_cons, List.append_assoc] at h
    have hxr := hrest xs (fun x hx => (hxs x hx).1) hr
    cases ys with
    | nil => exact absurd h.symm (hend' x hqx _ hxr)
    | cons y ys =>
      obtain ⟨hqy, hys⟩ := List.forall_mem_cons.mp hy
      rw [List.flatMap_cons, List.append_assoc] at h
      obtain ⟨hxy, h⟩ := hread y hqy _ _ hxr (hrest ys hys hr') h
      obtain ⟨hmap, hrr⟩ := ih hxs hys h
      exact ⟨congrArg₂ (· :: ·) hxy hmap, hrr⟩

end Reflow
