import JsxStyle.Text.Basic

/-!
# Ranges of a text

A span is a half-open range of byte offsets.  It is how a reading remembers
where in the source something stood.
-/

namespace JsxStyle

/-- The byte range from `lo` up to, and not including, `hi`. -/
structure Span where
  lo : Nat
  hi : Nat
deriving DecidableEq, Repr

namespace Span

/-- The part of a text that a span covers. -/
def of (s : Span) (t : Text) : Text :=
  t.slice s.lo s.hi

/-- Whether `inner` lies within `outer`. -/
def Within (inner outer : Span) : Prop :=
  outer.lo ≤ inner.lo ∧ inner.hi ≤ outer.hi

instance (inner outer : Span) : Decidable (inner.Within outer) :=
  inferInstanceAs (Decidable (_ ∧ _))

theorem Within.refl (s : Span) : s.Within s :=
  ⟨Nat.le_refl _, Nat.le_refl _⟩

theorem Within.trans {a b c : Span} (h₁ : a.Within b) (h₂ : b.Within c) : a.Within c :=
  ⟨Nat.le_trans h₂.1 h₁.1, Nat.le_trans h₁.2 h₂.2⟩

end Span

end JsxStyle
