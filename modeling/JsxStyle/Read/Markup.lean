import JsxStyle.Read.Reading
import JsxStyle.Text.Blank

/-!
# Elements

An element is an opening tag with attributes, then, unless the tag closes
itself, child nodes up to a closing tag of the same name.  Until the opening
tag is complete, text that does not fit means that there is no element after
all, and the answer is `none`; once it is, text that does not fit is an error.

Attributes and children are read by loops that end because every reading
advances.
-/

namespace JsxStyle

namespace Read

open Ascii

variable (r : Readers) (src : Text)

/-- The expression between braces at `lo` to `hi`; white space alone is none. -/
def containerExpression (lo hi : Nat) : Result (Option Ast) :=
  if (src.slice lo hi).isBlank then pure none else some <$> r.expression lo hi

/-- Reads an attribute whose name, at `lo`, ends at `nameStop`. -/
def attributeAt (lo nameStop hi : Nat) (h : lo < nameStop) : Result (Option (Reading lo)) :=
  let name := src.slice lo nameStop
  let eq := Scan.skipSpace src nameStop hi
  if (src.slice eq hi).head? = some equals then
    let valueLo := Scan.skipSpace src (eq + 1) hi
    have hle : lo < valueLo :=
      Nat.lt_of_lt_of_le (Nat.lt_succ_of_lt (Nat.lt_of_lt_of_le h (Scan.le_skipSpace ..)))
        (Scan.le_skipSpace ..)
    let finish (value : Ast) (stop : Nat) (hv : valueLo < stop) : Option (Reading lo) :=
      some ⟨Ast.placed lo stop (.attr name (some value)), stop, Nat.lt_trans hle hv⟩
    match src.slice valueLo hi with
    | [] => pure none
    | b :: rest =>
      if b.isQuote then
        match rest.findIdx? (· == b) with
        | none => pure none
        | some n =>
          let stop := valueLo + n + 2
          let value := Ast.placed valueLo stop (.str (rest.take n) (Char.ofNat b.toNat))
          pure (finish value stop (Nat.lt_succ_of_lt (Nat.lt_succ_of_le (Nat.le_add_right ..))))
      else if b = openBrace then
        match Scan.closeTail (.group closeBrace) [] (src.drop (valueLo + 1)) with
        | none => pure none
        | some n =>
          if valueLo + n < hi then do
            let expression ← containerExpression r src (valueLo + 1) (valueLo + n)
            let stop := valueLo + n + 1
            pure (finish (Ast.placed valueLo stop (.container expression)) stop
              (Nat.lt_succ_of_le (Nat.le_add_right ..)))
          else pure none
      else if b = less then do
        let some value ← r.element valueLo hi | return none
        pure (finish value.ast value.stop value.advances)
      else pure none
  else
    pure (some ⟨Ast.placed lo nameStop (.attr name none), nameStop, h⟩)

/-- What is left of an opening tag behind offset `pos`: attributes and the end. -/
structure TagTail (pos : Nat) where
  attributes : List Ast
  selfClosing : Bool
  stop : Nat
  advances : pos < stop

/-- The rest of a tag with one more attribute in front. -/
def TagTail.cons {pos pos' : Nat} (attr : Ast) (h : pos' ≤ pos) (t : TagTail pos) :
    TagTail pos' :=
  ⟨attr :: t.attributes, t.selfClosing, t.stop, Nat.lt_of_le_of_lt h t.advances⟩

/-- Reads the attributes of an opening tag from `pos` on, and its end. -/
def tagTail (hi pos : Nat) : Result (Option (TagTail pos)) :=
  let here := Scan.skipSpace src pos hi
  have hhere : pos ≤ here := Scan.le_skipSpace ..
  if here < hi then
    match src.drop here with
    | [] => pure none
    | b :: rest =>
      if b = slash ∧ rest.head? = some greater then
        pure (some ⟨[], true, here + 2, Nat.lt_succ_of_lt (Nat.lt_succ_of_le hhere)⟩)
      else if b = greater then
        pure (some ⟨[], false, here + 1, Nat.lt_succ_of_le hhere⟩)
      else if b = openBrace then
        match Scan.closeTail (.group closeBrace) [] rest with
        | none => pure none
        | some n =>
          let close := here + n
          let inner := Scan.skipSpace src (here + 1) close
          if close < hi ∧ [dot, dot, dot].isPrefixOf (src.slice inner close) then do
            let argument ← r.expression (inner + 3) close
            let some tail ← tagTail hi (close + 1) | return none
            return some (tail.cons (Ast.placed here (close + 1) (.spread argument))
              (Nat.le_trans hhere (Nat.le_add_right here (n + 1))))
          else pure none
      else if b.isIdentStart then do
        let nameStop := here + 1 + (rest.takeWhile Byte.isNameChar).length
        let some attr ← attributeAt r src here nameStop hi
          (Nat.lt_add_right _ (Nat.lt_succ_self here)) | return none
        have hadv := attr.advances
        let some tail ← tagTail hi attr.stop | return none
        return some (tail.cons attr.ast (Nat.le_of_lt (Nat.lt_of_le_of_lt hhere hadv)))
      else pure none
  else pure none
termination_by hi - pos

/-- What stands behind an opening tag that ends at `pos`: children and the closing tag. -/
structure Content (pos : Nat) where
  children : List Ast
  closing : Text
  stop : Nat
  advances : pos < stop

/-- The content of an element with one more child in front. -/
def Content.cons {pos pos' : Nat} (child : Ast) (h : pos' ≤ pos) (c : Content pos) :
    Content pos' :=
  ⟨child :: c.children, c.closing, c.stop, Nat.lt_of_le_of_lt h c.advances⟩

/-- Reads the closing tag at `pos` of an element called `name`. -/
def closingTag (name : Text) (hi pos : Nat) : Result (Content pos) :=
  let nameLo := Scan.skipSpace src (pos + 2) hi
  let nameStop := Scan.nameEnd src nameLo
  let found := src.slice nameLo nameStop
  let close := Scan.skipSpace src nameStop hi
  have hname : pos ≤ nameStop :=
    Nat.le_trans (Nat.le_of_add_right_le (Scan.le_skipSpace ..)) (Scan.le_nameEnd ..)
  have hpos : pos < close + 1 := Nat.lt_succ_of_le (Nat.le_trans hname (Scan.le_skipSpace ..))
  if (src.slice close hi).head? = some greater then
    if found = name then .ok ⟨[], src.slice pos (close + 1), close + 1, hpos⟩
    else .error ⟨.unexpectedClosingTag found name, pos⟩
  else .error ⟨.malformedClosingTag name, pos⟩

/-- Reads the content, from `pos` on, of an element called `name` that begins at `lo`. -/
def content (name : Text) (lo hi pos : Nat) : Result (Content pos) :=
  if pos < hi then
    match src.drop pos with
    | [] => .error ⟨.unclosedElement name, lo⟩
    | b :: rest =>
      if b = less ∧ rest.head? = some slash then closingTag src name hi pos
      else if b = less then do
        let some child ← r.element pos hi | .error ⟨.strayLess name, pos⟩
        have hadv := child.advances
        let more ← content name lo hi child.stop
        return more.cons child.ast (by omega)
      else if b = openBrace then
        match Scan.closeTail (.group closeBrace) [] rest with
        | none => .error ⟨.unclosedContainer, pos⟩
        | some n =>
          let close := pos + n
          if close < hi then do
            let expression ← containerExpression r src (pos + 1) close
            let more ← content name lo hi (close + 1)
            return more.cons (Ast.placed pos (close + 1) (.container expression)) (by omega)
          else .error ⟨.unclosedContainer, pos⟩
      else do
        let run := (src.slice (pos + 1) hi).takeWhile fun b => b != less && b != openBrace
        let stop := pos + 1 + run.length
        let more ← content name lo hi stop
        return more.cons (Ast.placed pos stop (.text (src.slice pos stop))) (by omega)
  else .error ⟨.unclosedElement name, lo⟩
termination_by hi - pos

/-- Reads the element whose `<` is at `lo`.  A tag without a name opens a
fragment of markup, and only `>` can follow at once. -/
def element (lo hi : Nat) : Result (Option (Reading lo)) := do
  let nameLo := lo + 1
  let nameStop := Scan.nameEnd src nameLo
  have hname : nameLo ≤ nameStop := Scan.le_nameEnd ..
  if hi ≤ nameLo then return none
  if nameStop = nameLo ∧ src[nameLo]? ≠ some greater then return none
  let name := src.slice nameLo nameStop
  let some tag ← tagTail r src hi nameStop | return none
  have htag := tag.advances
  let opening := Ast.placed lo tag.stop (.opening name tag.attributes tag.selfClosing)
  if tag.selfClosing then
    return some ⟨Ast.placed lo tag.stop (.element opening [] none), tag.stop, by omega⟩
  let inner ← content r src name lo hi tag.stop
  have hinner := inner.advances
  return some {
    ast := Ast.placed lo inner.stop (.element opening inner.children (some inner.closing))
    stop := inner.stop
    advances := by omega }

end Read

end JsxStyle
