import JsxStyle.Proofs.CheckedText
import JsxStyle.Proofs.Nesting

/-!
# Checked readers
-/

namespace JsxStyle

namespace Checked

open Ascii Read

/-- Ends a run with an error of the program. -/
def fail {ε α : Type} (e : ε) : Checked ε α :=
  .error (.failure e)

/-- Readers of what can nest that check their accesses. -/
structure Readers where
  expression : (lo hi : Nat) → Checked ReadError Ast
  element : (lo hi : Nat) → Checked ReadError (Option (Reading lo))

/-- Reads the expressions of several ranges in order. -/
def Readers.expressions (r : Readers) (ranges : List Span) : Checked ReadError (List Ast) :=
  ranges.mapM fun s => r.expression s.lo s.hi

/-- The opaque code from `lo` to `hi`, if there is any. -/
def opaqueCode (src : Text) (lo hi : Nat) : Checked ReadError (List Ast) :=
  if lo < hi then do
    let text ← cut src lo hi
    return [Ast.placed lo hi (.code text)]
  else return []

/-- The bindings of an import clause, which are cut out of it at its braces. -/
def clauseBindings (clause : Text) : Checked ReadError (Option Text × List Binding) :=
  match clause.findIdx? (· == openBrace) with
  | none => return (defaultBinding? clause, [])
  | some i => do
    let tail ← cut clause i clause.length
    let inner ← cut clause (i + 1) (i + (tail.takeWhile (· != closeBrace)).length)
    let head ← cut clause 0 i
    return (defaultBinding? head, (Text.pieces comma inner).filterMap binding?)

/-- The offset at which a statement whose source string ends at `stop` ends. -/
def statementEnd (src : Text) (stop hi : Nat) : Checked ReadError Nat := do
  let blanks := stop + (← run (fun b => b == space || b == tab) src stop hi)
  let mark := if (← peek src blanks hi) = some semicolon then blanks + 1 else blanks
  let rest ← cut src mark src.length
  return if [carriageReturn, newline].isPrefixOf rest then mark + 2
    else if [newline].isPrefixOf rest then mark + 1
    else mark

/-- Whether an import statement may begin at `i`, in code that begins at `lo`. -/
def importStarts (src : Text) (lo i : Nat) : Checked ReadError Bool := do
  let rest ← cut src i src.length
  if importWord.isPrefixOf rest &&
      (src[i + 6]?).any (fun b => b.isSpace || b == openBrace || b == star) then
    let apart ← if i = lo then pure true else do
      let before ← byteAt src (i - 1)
      pure !before.isIdentChar
    if apart then atLineStart src i else return false
  else return false

/-- Reads the import statement at `lo`. -/
def importAt (src : Text) (lo hi : Nat) : Checked ReadError (Option (Reading lo)) := do
  let start := lo + 6
  let mark :=
    start + (← run (fun b => !(b.isQuote || b == openParen || b == semicolon)) src start hi)
  match ← peek src mark hi with
  | none => return none
  | some b =>
    if b.isQuote then
      match ← stringTail b src (mark + 1) with
      | none => return none
      | some n => do
        let source ← cut src (mark + 1) (mark + n)
        let bindings ← clauseBindings (clauseProper (← cut src start mark))
        let stop ← statementEnd src (mark + 1 + n) hi
        let raw ← cut src lo stop
        let ⟨h⟩ ← ahead lo stop
        return some ⟨Ast.placed lo stop (.importing ⟨source, bindings.1, bindings.2, raw⟩), stop, h⟩
    else return none

/-- The tag of the template whose backtick is at `tick`, looking back no further than `flushed`. -/
def tagBefore (src : Text) (flushed tick : Nat) : Checked ReadError (Option Text) := do
  let start ← runStart (fun b => b.isIdentChar || b == dot) src flushed tick
  let tag ← cut src start tick
  if tag.isEmpty then return none
  else do
    let first ← byteAt src start
    let segments := Text.pieces dot tag
    if !first.isIdentStart || segments.any (·.isEmpty) then return none
    else if segments.length == 1 then
      if ← endsWithKeyword tag then return none else return some tag
    else return some tag

variable (r : Readers) (src : Text)

/-- Reads the template literal whose backtick is at `tick`, tagged by a node that begins at `lo`. -/
def taggedTemplate (tag : Ast) (lo tick : Nat) : Checked ReadError (Reading tick) := do
  match ← templateParts src tick with
  | none => fail ⟨.unterminatedTemplate, tick⟩
  | some parts => do
    let holes ← r.expressions parts.holes
    let ⟨h⟩ ← ahead tick parts.stop
    return ⟨Ast.placed lo parts.stop (.template tag parts.chunks holes), parts.stop, h⟩

/-- Reads the code up to `hi` of a range that begins at `lo`. -/
def codeFrom (lo hi flushed i : Nat) : Checked ReadError (List Ast) :=
  if i < hi then do
    let b ← byteAt src i
    match Scan.lead b (src.drop (i + 1)) with
    | .string quote => do
      let n ← stringTail quote src (i + 1)
      codeFrom lo hi flushed (i + 1 + n.getD 0)
    | .lineComment => do
      let n ← lineTail src (i + 1)
      codeFrom lo hi flushed (i + 1 + n)
    | .blockComment =>
      match ← commentTail src (i + 2) with
      | none => opaqueCode src flushed hi
      | some n => codeFrom lo hi flushed (i + 2 + n)
    | .template =>
      match ← tagBefore src flushed i with
      | some tag => do
        let tagLo := i - tag.length
        let before ← opaqueCode src flushed tagLo
        let found ← taggedTemplate r src (tagNode tagLo (← cut src tagLo i)) tagLo i
        have _hadv := found.advances
        let more ← codeFrom lo hi found.stop found.stop
        return before ++ found.ast :: more
      | none =>
        match ← closeTail src (.template (i + 1)) [] (i + 1) with
        | none => fail ⟨.unterminatedTemplate, i⟩
        | some n => codeFrom lo hi flushed (i + 1 + n)
    | .group _ | .plain =>
      if importWord.head? = some b then
        if ← importStarts src lo i then
          match ← importAt src i hi with
          | some found => do
            have _hadv := found.advances
            let before ← opaqueCode src flushed i
            let more ← codeFrom lo hi found.stop found.stop
            return before ++ found.ast :: more
          | none => codeFrom lo hi flushed (i + 1)
        else codeFrom lo hi flushed (i + 1)
      else if b = less then
        if ← markupMayStart src i then
          match ← r.element i hi with
          | some found => do
            have _hadv := found.advances
            let before ← opaqueCode src flushed i
            let more ← codeFrom lo hi found.stop found.stop
            return before ++ found.ast :: more
          | none => codeFrom lo hi flushed (i + 1)
        else codeFrom lo hi flushed (i + 1)
      else codeFrom lo hi flushed (i + 1)
  else opaqueCode src flushed hi
termination_by hi - i

/-- Reads the code from `lo` to `hi`. -/
def code (lo hi : Nat) : Checked ReadError (List Ast) :=
  codeFrom r src lo hi lo lo

/-- The expression between braces at `lo` to `hi`. -/
def containerExpression (lo hi : Nat) : Checked ReadError (Option Ast) := do
  let inner ← cut src lo hi
  if inner.isBlank then return none else some <$> r.expression lo hi

/-- Reads the attribute at `lo`. -/
def attributeAt (lo hi : Nat) : Checked ReadError (Option (Reading lo)) := do
  let nameStop := lo + (← nameLength Byte.isNameChar src lo)
  let name ← cut src lo nameStop
  let finish (value : Option Ast) (stop : Nat) : Checked ReadError (Option (Reading lo)) := do
    let ⟨h⟩ ← ahead lo stop
    return some ⟨Ast.placed lo stop (.attr name value), stop, h⟩
  let eq ← skipSpace src nameStop hi
  if (← peek src eq hi) = some equals then
    let valueLo ← skipSpace src (eq + 1) hi
    match ← peek src valueLo hi with
    | none => return none
    | some b =>
      if b.isQuote then
        let rest ← cut src (valueLo + 1) hi
        match rest.findIdx? (· == b) with
        | none => return none
        | some n =>
          let text ← cut src (valueLo + 1) (valueLo + 1 + n)
          let stop := valueLo + n + 2
          finish (some (Ast.placed valueLo stop (.str text (Char.ofNat b.toNat)))) stop
      else if b = openBrace then
        match ← groupTail src valueLo with
        | none => return none
        | some n =>
          if valueLo + n < hi then do
            let expression ← containerExpression r src (valueLo + 1) (valueLo + n)
            let stop := valueLo + n + 1
            finish (some (Ast.placed valueLo stop (.container expression))) stop
          else return none
      else if b = less then
        match ← r.element valueLo hi with
        | none => return none
        | some value => finish (some value.ast) value.stop
      else return none
  else finish none nameStop

/-- Reads the attributes of an opening tag from `pos` on, and its end. -/
def tagTail (hi pos : Nat) : Checked ReadError (Option (TagTail pos)) := do
  let ⟨here, _⟩ ← spaceEnd src pos hi
  if here < hi then do
    let b ← byteAt src here
    if b = slash ∧ src[here + 1]? = some greater then
      return some ⟨[], true, here + 2, by omega⟩
    else if b = greater then return some ⟨[], false, here + 1, by omega⟩
    else if b = openBrace then
      match ← groupTail src here with
      | none => return none
      | some n =>
        let close := here + n
        if close < hi then do
          let inner ← skipSpace src (here + 1) close
          if [dot, dot, dot].isPrefixOf (← cut src inner close) then do
            let argument ← r.expression (inner + 3) close
            match ← tagTail hi (close + 1) with
            | none => return none
            | some tail =>
              return some (tail.cons (Ast.placed here (close + 1) (.spread argument)) (by omega))
          else return none
        else return none
    else if b.isIdentStart then
      match ← attributeAt r src here hi with
      | none => return none
      | some attr =>
        have hadv := attr.advances
        match ← tagTail hi attr.stop with
        | none => return none
        | some tail => return some (tail.cons attr.ast (by omega))
    else return none
  else return none
termination_by hi - pos

/-- Reads the closing tag at `pos` of an element called `name`. -/
def closingTag (name : Text) (hi pos : Nat) : Checked ReadError (Content pos) := do
  let nameLo ← skipSpace src (pos + 2) hi
  let nameStop := nameLo + (← nameLength Byte.isNameChar src nameLo)
  let found ← cut src nameLo nameStop
  let close ← skipSpace src nameStop hi
  if (← peek src close hi) = some greater then
    if found = name then
      let closing ← cut src pos (close + 1)
      let ⟨h⟩ ← ahead pos (close + 1)
      return ⟨[], closing, close + 1, h⟩
    else fail ⟨.unexpectedClosingTag found name, pos⟩
  else fail ⟨.malformedClosingTag name, pos⟩

/-- Reads the content, from `pos` on, of an element called `name` that begins at `lo`. -/
def content (name : Text) (lo hi pos : Nat) : Checked ReadError (Content pos) :=
  if pos < hi then do
    let rest ← cut src pos src.length
    if [less, slash].isPrefixOf rest then closingTag src name hi pos
    else do
      let b ← byteAt src pos
      if b = less then
        match ← r.element pos hi with
        | none => fail ⟨.strayLess name, pos⟩
        | some child =>
          have hadv := child.advances
          let more ← content name lo hi child.stop
          return more.cons child.ast (Nat.le_of_lt hadv)
      else if b = openBrace then
        match ← groupTail src pos with
        | none => fail ⟨.unclosedContainer, pos⟩
        | some n =>
          let close := pos + n
          if close < hi then do
            let expression ← containerExpression r src (pos + 1) close
            let ⟨h⟩ ← ahead pos (close + 1)
            let more ← content name lo hi (close + 1)
            return more.cons (Ast.placed pos (close + 1) (.container expression)) (Nat.le_of_lt h)
          else fail ⟨.unclosedContainer, pos⟩
      else do
        let rest ← cut src pos hi
        let stop := pos + (rest.takeWhile fun b => b != less && b != openBrace).length
        let text ← cut src pos stop
        let ⟨h⟩ ← ahead pos stop
        let more ← content name lo hi stop
        return more.cons (Ast.placed pos stop (.text text)) (Nat.le_of_lt h)
  else fail ⟨.unclosedElement name, lo⟩
termination_by hi - pos

/-- Reads the element whose `<` is at `lo`. -/
def element (lo hi : Nat) : Checked ReadError (Option (Reading lo)) := do
  let nameLo := lo + 1
  match ← peek src nameLo hi with
  | none => return none
  | some b =>
    let n ← nameLength Byte.isNameChar src nameLo
    if b ≠ greater ∧ n = 0 then return none
    else do
      let name ← cut src nameLo (nameLo + n)
      match ← tagTail r src hi (nameLo + n) with
      | none => return none
      | some tag =>
        have htag := tag.advances
        let opening := Ast.placed lo tag.stop (.opening name tag.attributes tag.selfClosing)
        if tag.selfClosing then
          return some ⟨Ast.placed lo tag.stop (.element opening [] none), tag.stop, by omega⟩
        else do
          let inner ← content r src name lo hi tag.stop
          have hinner := inner.advances
          return some {
            ast := Ast.placed lo inner.stop
              (.element opening inner.children (some inner.closing))
            stop := inner.stop
            advances := by omega }

/-- The byte behind the one at `pos`, if that is a dot. -/
def behindDot (b : Byte) (hi pos : Nat) : Checked ReadError (Option Byte) :=
  if b = dot then peek src (pos + 1) hi else pure none

/-- Reads what is chained, from `pos` on, to an operand that begins at `lo`. -/
def chain (lo hi : Nat) (operand : Ast) (pos : Nat) (h : lo < pos) :
    Checked ReadError (Option (Reading lo)) :=
  if pos < hi then do
    let b ← byteAt src pos
    if (← behindDot src b hi pos).any Byte.isIdentStart then do
      let n ← nameLength Byte.isIdentChar src (pos + 1)
      let stop := pos + 1 + n
      let property ← cut src (pos + 1) stop
      let ⟨h⟩ ← ahead lo stop
      chain lo hi (Ast.placed lo stop (.member operand property)) stop h
    else if b = openParen then
      match ← groupTail src pos with
      | none => return none
      | some n =>
        let close := pos + n
        if close < hi then
          match ← segmentsFrom src close (pos + 1) (pos + 1) with
          | none => return none
          | some ranges => do
            let arguments ← r.expressions ranges
            let stop := close + 1
            let ⟨h⟩ ← ahead lo stop
            chain lo hi (Ast.placed lo stop (.call operand arguments)) stop h
        else return none
    else if b = tick then
      match ← templateParts src pos with
      | none => return none
      | some parts =>
        if parts.stop ≤ hi then do
          let tagged ← taggedTemplate r src operand lo pos
          have _hadv := tagged.advances
          let ⟨h⟩ ← ahead lo tagged.stop
          chain lo hi tagged.ast tagged.stop h
        else return none
    else return some ⟨operand, pos, h⟩
  else return some ⟨operand, pos, h⟩
termination_by hi - pos

/-- Reads the operand at `lo` and what is chained to it. -/
def operand (lo hi : Nat) : Checked ReadError (Option (Reading lo)) := do
  let b ← byteAt src lo
  if b.isQuote then
    match ← stringTail b src (lo + 1) with
    | none => return none
    | some n =>
      let stop := lo + 1 + n
      if stop ≤ hi then do
        let raw ← cut src (lo + 1) (lo + n)
        let ⟨h⟩ ← ahead lo stop
        chain r src lo hi (Ast.placed lo stop (.str raw.unescape (Char.ofNat b.toNat))) stop h
      else return none
  else if b = openBracket then
    match ← groupTail src lo with
    | none => return none
    | some n =>
      let close := lo + n
      if close < hi then
        match ← segmentsFrom src close (lo + 1) (lo + 1) with
        | none => return none
        | some ranges => do
          let elements ← r.expressions ranges
          let stop := close + 1
          let ⟨h⟩ ← ahead lo stop
          chain r src lo hi (Ast.placed lo stop (.array elements)) stop h
      else return none
  else if b = less then r.element lo hi
  else if b.isIdentStart then do
    let n ← nameLength Byte.isIdentChar src lo
    let name ← cut src lo (lo + n)
    let ⟨h⟩ ← ahead lo (lo + n)
    chain r src lo hi (Ast.placed lo (lo + n) (.ident name)) (lo + n) h
  else return none

/-- Reads the expression that fills the range `lo` to `hi`. -/
def expression (lo hi : Nat) : Checked ReadError Ast := do
  let start ← skipSpace src lo hi
  let stop ← runStart Byte.isSpace src start hi
  if start = stop then return Ast.placed lo hi (.fragment [])
  else do
    let whole (parts : List Ast) : Ast := Ast.placed start stop (.fragment parts)
    match ← operand r src start stop with
    | none => return whole (← code r src start stop)
    | some found =>
      if (← skipSpace src found.stop stop) = stop then return found.ast
      else return whole (← code r src start stop)

/-- The readers that look `depth` levels into a text. -/
def readers : (depth : Nat) → Readers
  | 0 => {
      expression := fun lo _ => fail ⟨.tooDeep, lo⟩
      element := fun lo _ => fail ⟨.tooDeep, lo⟩ }
  | depth + 1 =>
    let below := readers depth
    { expression := expression ⟨below.expression, element below src⟩ src
      element := element below src }

/-- Reads a module as the nodes of its program. -/
def program : Checked ReadError (List Ast) :=
  code (readers src (src.length + 1)) src 0 src.length

/-- Reads a text that is one expression, as a tree without places. -/
def snippet : Checked ReadError Ast :=
  Ast.unplaced <$> (readers src (src.length + 1)).expression 0 src.length

end Checked

end JsxStyle
