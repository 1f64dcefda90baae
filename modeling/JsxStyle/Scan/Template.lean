import JsxStyle.Scan.Group
import JsxStyle.Text.Span

/-!
# The parts of a template literal

A template literal alternates between chunks of raw text and holes, the
groups that `$` introduces.  `templateTail` takes one apart: the chunks as
they are written, the ranges of the holes without their braces, and the offset
behind the closing backtick.

* `templateTail_bounds`: the end lies ahead and within the text, and so does
  every hole.
-/

namespace JsxStyle

namespace Scan

open Ascii

/-- The pieces of a template literal. -/
structure TemplateParts where
  /-- The raw text between the holes, one more than there are holes. -/
  chunks : List Text
  /-- The ranges of the interpolated expressions, braces excluded. -/
  holes : List Span
  /-- The offset just behind the closing backtick. -/
  stop : Nat
deriving DecidableEq, Repr

namespace TemplateParts

/-- The parts of a literal whose first chunk has `bytes` in front. -/
def extend (bytes : Text) (p : TemplateParts) : TemplateParts :=
  match p.chunks with
  | [] => { p with chunks := [bytes] }
  | chunk :: chunks => { p with chunks := (bytes ++ chunk) :: chunks }

/-- The parts of a literal that begins with an empty chunk and `hole`. -/
def consHole (hole : Span) (p : TemplateParts) : TemplateParts :=
  { p with chunks := [] :: p.chunks, holes := hole :: p.holes }

@[simp] theorem extend_holes (bytes : Text) (p : TemplateParts) :
    (p.extend bytes).holes = p.holes := by
  unfold extend; split <;> rfl

@[simp] theorem extend_stop (bytes : Text) (p : TemplateParts) :
    (p.extend bytes).stop = p.stop := by
  unfold extend; split <;> rfl

end TemplateParts

/-- Takes a template literal apart behind its opening backtick; `pos` is the
offset of the text `t` in the source. -/
def templateTail (pos : Nat) (t : Text) : Option TemplateParts :=
  match t with
  | [] => none
  | b :: rest =>
    if b = backslash then
      (templateTail (pos + 2) (rest.drop 1)).map (·.extend (b :: rest.take 1))
    else if b = tick then some ⟨[[]], [], pos + 1⟩
    else if b = dollar ∧ rest.head? = some openBrace then
      match closeTail (.group closeBrace) [] (rest.drop 1) with
      | none => none
      | some n =>
        (templateTail (pos + 2 + n) (rest.drop (n + 1))).map
          (·.consHole ⟨pos + 2, pos + 1 + n⟩)
    else (templateTail (pos + 1) rest).map (·.extend [b])
termination_by t.length
decreasing_by all_goals (simp only [List.length_drop, List.length_cons]; omega)

/-- Takes apart the template literal whose backtick is at `pos`. -/
def templateParts (src : Text) (pos : Nat) : Option TemplateParts :=
  templateTail (pos + 1) (src.drop (pos + 1))

/-- The offset just behind the template literal whose backtick is at `pos`. -/
def templateEnd (src : Text) (pos : Nat) : Option Nat :=
  (templateParts src pos).map (·.stop)

/-- The end of a template lies ahead and within the text, and so do its holes. -/
theorem templateTail_bounds {pos : Nat} {t : Text} {p : TemplateParts}
    (h : templateTail pos t = some p) :
    pos < p.stop ∧ p.stop ≤ pos + t.length ∧
      ∀ s ∈ p.holes, pos + 2 ≤ s.lo ∧ s.lo ≤ s.hi ∧ s.hi < p.stop := by
  match t, h with
  | [], h => simp [templateTail] at h
  | b :: rest, h =>
    rw [templateTail] at h
    split at h
    case isTrue =>
      obtain ⟨q, hq, rfl⟩ := Option.map_eq_some_iff.1 h
      have := templateTail_bounds hq
      cases rest with
      | nil => simp [templateTail] at hq
      | cons c rest =>
        simp at this
        grind [TemplateParts.extend_holes, TemplateParts.extend_stop]
    split at h
    case isTrue => grind
    split at h
    case isTrue =>
      cases hn : closeTail (.group closeBrace) [] (rest.drop 1) with
      | none =>
        rw [hn] at h
        exact absurd h (by simp)
      | some n =>
        rw [hn] at h
        obtain ⟨q, hq, rfl⟩ := Option.map_eq_some_iff.1 h
        have hb := closeTail_bounds hn
        have := templateTail_bounds hq
        simp only [List.length_drop, List.length_cons, TemplateParts.consHole, List.mem_cons] at *
        grind
    case isFalse =>
      obtain ⟨q, hq, rfl⟩ := Option.map_eq_some_iff.1 h
      have := templateTail_bounds hq
      grind [TemplateParts.extend_holes, TemplateParts.extend_stop]
termination_by t.length
decreasing_by all_goals (simp only [List.length_drop, List.length_cons]; omega)

end Scan

end JsxStyle
