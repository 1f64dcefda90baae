import JsxStyle.Proofs.Seams

/-!
# What an error points at

An error names a cause and points at the byte that opens what does not end well:
the backtick of a template, the `<` of a tag or the brace of a container.  There is
one lemma for each reader: if the readers that it calls have such errors only, so
does the reader.

* `ReadError.Grounded`: an error with a cause in the text;
* `grounded_expression`, `grounded_element`, `grounded_codeFrom`: the readers.
-/

namespace JsxStyle

open Ascii

/-- An error with a cause in the text, which points at the byte that opens what
does not end well. -/
structure ReadError.Grounded (src : Text) (e : ReadError) : Prop where
  cause : e.cause ≠ .tooDeep
  opener : ∃ b ∈ [tick, less, openBrace], src[e.offset]? = some b

namespace Read

open Ast

/-- Readers whose errors all have a cause in the text, as long as elements are
looked for where there is a `<`. -/
structure Readers.Grounded (src : Text) (r : Readers) : Prop where
  expression : ∀ {lo hi : Nat} {e : ReadError}, r.expression lo hi = .error e → e.Grounded src
  element : ∀ {lo hi : Nat} {e : ReadError}, src[lo]? = some less →
    r.element lo hi = .error e → e.Grounded src

section Parts

variable {r : Readers} {src : Text} {lo hi : Nat} {e : ReadError}

/-- An error that points at a backtick, a `<` or an opening brace has a cause. -/
theorem grounded_at {cause : Cause} {offset : Nat} {b : Byte} (hcause : cause ≠ .tooDeep)
    (hb : src[offset]? = some b) (hopener : b ∈ [tick, less, openBrace]) :
    ReadError.Grounded src ⟨cause, offset⟩ :=
  ⟨hcause, b, hopener, hb⟩

variable (hr : r.Grounded src)

include hr

/-- Errors in the holes of a template have a cause. -/
theorem grounded_expressions {ranges : List Span} (h : r.expressions ranges = .error e) :
    e.Grounded src := by
  unfold Readers.expressions at h
  induction ranges with
  | nil => exact absurd h pure_ne_error
  | cons s rest ih =>
    rw [List.mapM_cons] at h
    rcases bind_eq_error.mp h with hs | ⟨a, -, h⟩
    · exact hr.expression hs
    · rcases bind_eq_error.mp h with hrest | ⟨as, -, h⟩
      · exact ih hrest
      · exact absurd h pure_ne_error

/-- Errors in a tagged template have a cause. -/
theorem grounded_taggedTemplate {tag : Ast} {tick : Nat} (htick : src[tick]? = some Ascii.tick)
    (h : taggedTemplate r src tag lo tick = .error e) : e.Grounded src := by
  cases hparts : Scan.templateParts src tick with
  | none =>
    rw [taggedTemplate_none _ _ _ hparts] at h
    obtain rfl := Except.error.inj h
    exact grounded_at (by simp) htick (by simp)
  | some parts =>
    rw [taggedTemplate_some _ _ _ hparts] at h
    rcases bind_eq_error.mp h with hholes | ⟨holes, -, h⟩
    · exact grounded_expressions hr hholes
    · exact absurd h pure_ne_error

/-- Errors in code have a cause. -/
theorem grounded_codeFrom {flushed i : Nat} (h : codeFrom r src lo hi flushed i = .error e) :
    e.Grounded src := by
  induction flushed, i using codeFrom_induct r src lo hi with
  | done heq => exact absurd (heq.symm.trans h) pure_ne_error
  | pass _ _ heq ih => exact ih (heq.symm.trans h)
  | unclosed htick heq =>
    obtain rfl := Except.error.inj (heq.symm.trans h)
    exact grounded_at (by simp) htick (by simp)
  | template _ htick _ heq ih =>
    rcases bind_eq_error.mp (heq.symm.trans h) with hfound | ⟨found, -, h⟩
    · exact grounded_taggedTemplate hr htick hfound
    · rcases bind_eq_error.mp h with hmore | ⟨more, -, h⟩
      · exact ih found hmore
      · exact absurd h pure_ne_error
  | importing _ _ _ heq ih =>
    rcases bind_eq_error.mp (heq.symm.trans h) with hmore | ⟨more, -, h⟩
    · exact ih hmore
    · exact absurd h pure_ne_error
  | element _ hless _ heq ih ih' =>
    rcases bind_eq_error.mp (heq.symm.trans h) with hfound | ⟨found, -, h⟩
    · exact hr.element hless hfound
    · cases found with
      | none => exact ih' h
      | some found =>
        rcases bind_eq_error.mp h with hmore | ⟨more, -, h⟩
        · exact ih found hmore
        · exact absurd h pure_ne_error

/-- Errors in the expression of a container have a cause. -/
theorem grounded_containerExpression (h : containerExpression r src lo hi = .error e) :
    e.Grounded src := by
  unfold containerExpression at h
  split at h
  · exact absurd h pure_ne_error
  · exact hr.expression (map_eq_error.mp h)

/-- Errors in an attribute have a cause. -/
theorem grounded_attributeAt {nameStop : Nat} {hlo : lo < nameStop}
    (h : attributeAt r src lo nameStop hi hlo = .error e) : e.Grounded src := by
  unfold attributeAt at h
  dsimp only at h
  split at h
  case isFalse => exact absurd h pure_ne_error
  case isTrue =>
    cases hslice : src.slice (Scan.skipSpace src (Scan.skipSpace src nameStop hi + 1) hi) hi with
    | nil => simp [hslice, pure_ne_error] at h
    | cons b rest =>
      simp only [hslice] at h
      split at h
      case isTrue => split at h <;> exact absurd h pure_ne_error
      case isFalse =>
        split at h
        case isTrue =>
          split at h
          · exact absurd h pure_ne_error
          · split at h
            case isTrue =>
              rcases bind_eq_error.mp h with hexpression | ⟨_, -, h⟩
              · exact grounded_containerExpression hr hexpression
              · exact absurd h pure_ne_error
            case isFalse => exact absurd h pure_ne_error
        case isFalse =>
          split at h
          case isTrue hless =>
            rcases bind_eq_error.mp h with hvalue | ⟨value, -, h⟩
            · exact hr.element (hless ▸ Scan.getElem?_of_slice_eq_cons hslice) hvalue
            · cases value <;> exact absurd h pure_ne_error
          case isFalse => exact absurd h pure_ne_error

/-- Errors in the rest of an opening tag have a cause. -/
theorem grounded_tagTail {pos : Nat} (h : tagTail r src hi pos = .error e) : e.Grounded src := by
  induction pos using tagTail_induct r src hi with
  | absent heq => exact absurd (heq.symm.trans h) pure_ne_error
  | selfClosing _ _ _ _ heq => exact absurd (heq.symm.trans h) pure_ne_error
  | closing _ _ _ _ heq => exact absurd (heq.symm.trans h) pure_ne_error
  | spread _ _ _ _ _ _ _ _ heq ih =>
    rcases bind_eq_error.mp (heq.symm.trans h) with hargument | ⟨_, -, h⟩
    · exact hr.expression hargument
    · rcases bind_eq_error.mp h with hmore | ⟨more, -, h⟩
      · exact ih hmore
      · cases more <;> exact absurd h pure_ne_error
  | attr _ _ _ _ _ _ _ heq ih =>
    rcases bind_eq_error.mp (heq.symm.trans h) with hattr | ⟨attr, -, h⟩
    · exact grounded_attributeAt hr hattr
    · cases attr with
      | none => exact absurd h pure_ne_error
      | some attr =>
        rcases bind_eq_error.mp h with hmore | ⟨more, -, h⟩
        · exact ih attr hmore
        · cases more <;> exact absurd h pure_ne_error

omit hr in
/-- Errors in a closing tag have a cause. -/
theorem grounded_closingTag {name : Text} {pos : Nat} (hpos : src[pos]? = some less)
    (h : closingTag src name hi pos = .error e) : e.Grounded src := by
  unfold closingTag at h
  dsimp only at h
  split at h
  · split at h
    · exact absurd h (by simp)
    · obtain rfl := Except.error.inj h
      exact grounded_at (by simp) hpos (by simp)
  · obtain rfl := Except.error.inj h
    exact grounded_at (by simp) hpos (by simp)

/-- Errors in the content of an element have a cause. -/
theorem grounded_content {name : Text} {pos : Nat} (hlo : src[lo]? = some less)
    (h : content r src name lo hi pos = .error e) : e.Grounded src := by
  induction pos using content_induct r src name lo hi with
  | unclosed heq =>
    obtain rfl := Except.error.inj (heq.symm.trans h)
    exact grounded_at (by simp) hlo (by simp)
  | unclosedContainer hbrace heq =>
    obtain rfl := Except.error.inj (heq.symm.trans h)
    exact grounded_at (by simp) hbrace (by simp)
  | closing hless heq => exact grounded_closingTag hless (heq.symm.trans h)
  | child hless heq ih =>
    rcases bind_eq_error.mp (heq.symm.trans h) with hchild | ⟨child, -, h⟩
    · exact hr.element hless hchild
    · cases child with
      | none =>
        obtain rfl := Except.error.inj h
        exact grounded_at (by simp) hless (by simp)
      | some child =>
        rcases bind_eq_error.mp h with hmore | ⟨more, -, h⟩
        · exact ih child hmore
        · exact absurd h pure_ne_error
  | container _ _ _ _ heq ih =>
    rcases bind_eq_error.mp (heq.symm.trans h) with hexpression | ⟨_, -, h⟩
    · exact grounded_containerExpression hr hexpression
    · rcases bind_eq_error.mp h with hmore | ⟨more, -, h⟩
      · exact ih hmore
      · exact absurd h pure_ne_error
  | text _ _ _ heq ih =>
    rcases bind_eq_error.mp (heq.symm.trans h) with hmore | ⟨more, -, h⟩
    · exact ih hmore
    · exact absurd h pure_ne_error

/-- Errors in an element have a cause. -/
theorem grounded_element (hlo : src[lo]? = some less) (h : element r src lo hi = .error e) :
    e.Grounded src := by
  unfold element at h
  dsimp only at h
  split at h
  · exact absurd h pure_ne_error
  · split at h
    · exact absurd h pure_ne_error
    · rcases bind_eq_error.mp h with htag | ⟨tag, -, h⟩
      · exact grounded_tagTail hr htag
      · cases tag with
        | none => exact absurd h pure_ne_error
        | some tag =>
          dsimp only at h
          split at h
          · exact absurd h pure_ne_error
          · rcases bind_eq_error.mp h with hinner | ⟨inner, -, h⟩
            · exact grounded_content hr hlo hinner
            · exact absurd h pure_ne_error

/-- Errors in a chain of calls and members have a cause. -/
theorem grounded_chain {operand : Ast} {pos : Nat} {hlo : lo < pos}
    (h : chain r src lo hi operand pos hlo = .error e) : e.Grounded src := by
  induction operand, pos, hlo using chain_induct r src hi with
  | done _ heq => exact absurd (heq.symm.trans h) pure_ne_error
  | absent _ heq => exact absurd (heq.symm.trans h) pure_ne_error
  | member _ _ _ _ heq ih => exact ih (heq.symm.trans h)
  | call _ _ _ _ _ _ heq ih =>
    rcases bind_eq_error.mp (heq.symm.trans h) with harguments | ⟨arguments, -, h⟩
    · exact grounded_expressions hr harguments
    · exact ih arguments h
  | template _ htick heq ih =>
    rcases bind_eq_error.mp (heq.symm.trans h) with htagged | ⟨tagged, -, h⟩
    · exact grounded_taggedTemplate hr htick htagged
    · exact ih tagged h

/-- Errors in an operand have a cause. -/
theorem grounded_operand (h : operand r src lo hi = .error e) : e.Grounded src := by
  unfold operand at h
  cases hdrop : src.drop lo with
  | nil => simp [hdrop, pure_ne_error] at h
  | cons b rest =>
    simp only [hdrop] at h
    split at h
    case isTrue =>
      cases hstring : Scan.stringTail b rest with
      | none => simp [hstring, pure_ne_error] at h
      | some n =>
        simp only [hstring] at h
        split at h
        · exact grounded_chain hr h
        · exact absurd h pure_ne_error
    case isFalse =>
      split at h
      case isTrue =>
        cases hclose : Scan.closeTail (.group closeBracket) [] rest with
        | none => simp [hclose, pure_ne_error] at h
        | some n =>
          simp only [hclose] at h
          split at h
          case isFalse => exact absurd h pure_ne_error
          case isTrue =>
            cases hsegments : Scan.segments src (lo + 1) (lo + n) with
            | none => simp [hsegments, pure_ne_error] at h
            | some ranges =>
              simp only [hsegments] at h
              rcases bind_eq_error.mp h with helements | ⟨elements, -, h⟩
              · exact grounded_expressions hr helements
              · exact grounded_chain hr h
      case isFalse =>
        split at h
        case isTrue hless => exact hr.element (hless ▸ (Scan.getElem?_of_drop_eq_cons hdrop).1) h
        case isFalse =>
          split at h
          · exact grounded_chain hr h
          · exact absurd h pure_ne_error

/-- Errors in an expression have a cause. -/
theorem grounded_expression (h : expression r src lo hi = .error e) : e.Grounded src := by
  unfold expression at h
  dsimp only at h
  split at h
  · exact absurd h pure_ne_error
  · rcases bind_eq_error.mp h with hfound | ⟨found, -, h⟩
    · exact grounded_operand hr hfound
    · have hcode {parts : Span} (h : (do
          let as ← code r src parts.lo parts.hi
          return Ast.placed parts.lo parts.hi (.fragment as) : Result Ast) = .error e) :
          e.Grounded src := by
        rcases bind_eq_error.mp h with hcode | ⟨as, -, h⟩
        · exact grounded_codeFrom hr hcode
        · exact absurd h pure_ne_error
      cases found with
      | none => exact hcode h
      | some found =>
        dsimp only at h
        split at h
        · exact absurd h pure_ne_error
        · exact hcode h

end Parts

end Read

end JsxStyle
