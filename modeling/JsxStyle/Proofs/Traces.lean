import JsxStyle.Proofs.Scans
import JsxStyle.Read.Module
import Mathlib.Data.List.Forall2

/-!
# How readings come about

A reader answers with a tree that it put together in one of a few ways.  For each
reader there is a relation with a constructor for each of these ways, which holds of
whatever the reader answers with: what was looked at, what the readers of nested
things answered, and the tree that was made of it.  The relations of the four readers
that go on until they are done, for code, opening tags, content and chains, are traces
of their steps, so a fact about what they read is shown by induction on the trace.

Errors are not traced.  For them the four readers have a principle of induction each,
whose cases are the steps that a reader can take.

* `codeFrom_induct`, `tagTail_induct`, `content_induct`, `chain_induct`: the steps;
* `CodeTrace`, `TagTrace`, `ContentTrace`, `ChainTrace`: what steps lead to;
* `AttributeTrace`, `ElementTrace`, `OperandTrace`, `ExpressionTrace`: the other readers.
-/

namespace JsxStyle

/-! ### Attempts -/

section Attempts

variable {ε α β : Type}

/-- A sequence of two attempts succeeds when the first does and the second does with its result. -/
theorem bind_eq_ok {x : Except ε α} {f : α → Except ε β} {b : β} :
    x >>= f = .ok b ↔ ∃ a, x = .ok a ∧ f a = .ok b := by
  cases x with
  | error e => simp [bind, Except.bind]
  | ok a => simp [bind, Except.bind]

/-- What an attempt answers with is changed, but not whether it succeeds. -/
theorem map_eq_ok {x : Except ε α} {f : α → β} {b : β} :
    f <$> x = .ok b ↔ ∃ a, x = .ok a ∧ f a = b := by
  cases x with
  | error e => simp [Functor.map, Except.map]
  | ok a => simp [Functor.map, Except.map]

/-- An attempt with a result that passes a test succeeds. -/
theorem exists_of_any {x : Except ε α} {p : α → Bool} (h : x.toOption.any p = true) :
    ∃ a, x = .ok a ∧ p a = true := by
  cases x with
  | error e => exact absurd h (by simp [Except.toOption])
  | ok a => exact ⟨a, rfl, h⟩

/-- A pure run answers with its value. -/
theorem pure_eq_ok {a b : α} : (pure a : Except ε α) = .ok b ↔ a = b :=
  ⟨Except.ok.inj, congrArg _⟩

/-- A reader that answers with nothing has found nothing. -/
theorem pure_none_ne_some {a : α} : (pure none : Except ε (Option α)) ≠ .ok (some a) :=
  nofun

/-- Attempts over a list succeed when each of them does. -/
theorem mapM_eq_ok {f : α → Except ε β} {l : List α} {bs : List β}
    (h : l.mapM f = .ok bs) : List.Forall₂ (fun a b => f a = .ok b) l bs := by
  induction l generalizing bs with
  | nil =>
    obtain rfl := pure_eq_ok.mp h
    exact .nil
  | cons a rest ih =>
    simp only [List.mapM_cons, bind_eq_ok, pure_eq_ok] at h
    obtain ⟨b, hb, bs', hbs, rfl⟩ := h
    exact .cons hb (ih hbs)

/-- A sequence of two attempts fails when the first does, or the second does with its result. -/
theorem bind_eq_error {x : Except ε α} {f : α → Except ε β} {e : ε} :
    x >>= f = .error e ↔ x = .error e ∨ ∃ a, x = .ok a ∧ f a = .error e := by
  cases x <;> simp [bind, Except.bind]

/-- A function of the answer leaves an error as it is. -/
theorem map_eq_error {f : α → β} {x : Except ε α} {e : ε} : f <$> x = .error e ↔ x = .error e := by
  cases x <;> simp [Functor.map, Except.map]

/-- A pure run ends without an error. -/
theorem pure_ne_error {a : α} {e : ε} : (pure a : Except ε α) ≠ .error e := by
  simp [pure, Except.pure]

end Attempts

namespace Read

open Ascii

variable {r : Readers} {src : Text}

/-! ### Leaves and templates -/

/-- Opaque code is one node, if there is any. -/
theorem eq_of_mem_opaqueCode {lo hi : Nat} {a : Ast} (h : a ∈ opaqueCode src lo hi) :
    lo < hi ∧ a = Ast.placed lo hi (.code (src.slice lo hi)) := by
  unfold opaqueCode at h
  split at h
  case isTrue hlt => exact ⟨hlt, List.mem_singleton.mp h⟩
  case isFalse => exact absurd h (by simp)

/-- A tag is an identifier, or a member of a tag. -/
theorem tagNode_induct {P : Ast → Prop}
    (ident : ∀ lo hi name, P (Ast.placed lo hi (.ident name)))
    (member : ∀ lo hi tag property, P tag → P (Ast.placed lo hi (.member tag property)))
    (lo : Nat) (tag : Text) : P (tagNode lo tag) := by
  have hmembers (properties : List Text) (tag : Ast × Nat) (htag : P tag.1) :
      P (properties.foldl (tagMember lo) tag).1 := by
    induction properties generalizing tag with
    | nil => exact htag
    | cons property properties ih => exact ih _ (member _ _ _ _ htag)
  unfold tagNode
  cases Text.pieces dot tag with
  | nil => exact ident lo lo []
  | cons first properties => exact hmembers properties _ (ident _ _ _)

/-- A tagged template has the parts of its literal, with its holes read. -/
theorem taggedTemplate_eq_ok {tag : Ast} {lo tick : Nat} {found : Reading tick}
    (h : taggedTemplate r src tag lo tick = .ok found) :
    ∃ parts holes, Scan.templateParts src tick = some parts ∧
      r.expressions parts.holes = .ok holes ∧ found.stop = parts.stop ∧
      found.ast = Ast.placed lo parts.stop (.template tag parts.chunks holes) := by
  cases hparts : Scan.templateParts src tick with
  | none =>
    rw [taggedTemplate_none _ _ _ hparts] at h
    exact absurd h (by simp)
  | some parts =>
    simp only [taggedTemplate_some _ _ _ hparts, bind_eq_ok, pure_eq_ok] at h
    obtain ⟨holes, hholes, rfl⟩ := h
    exact ⟨parts, holes, rfl, hholes, rfl, rfl⟩

/-- An import statement goes on behind the string literal that it imports from. -/
theorem importAt_eq_some {lo hi : Nat} {found : Reading lo} (h : importAt src lo hi = some found) :
    ∃ i b rest n decl, src.drop (lo + 6 + i) = b :: rest ∧ b.isQuote = true ∧
      Scan.stringTail b rest = some n ∧
      found.stop = statementEnd src (lo + 6 + i + 1 + n) hi ∧
      found.ast = Ast.placed lo found.stop (.importing decl) := by
  simp only [importAt, Option.bind_eq_bind, Option.bind_eq_some_iff] at h
  obtain ⟨i, -, h⟩ := h
  cases hdrop : src.drop (lo + 6 + i) with
  | nil => simp [hdrop] at h
  | cons b rest =>
    rw [hdrop] at h
    dsimp only at h
    split at h
    case isTrue hquote =>
      simp only [Option.bind_eq_some_iff, Option.pure_def, Option.some.injEq] at h
      obtain ⟨n, hn, rfl⟩ := h
      exact ⟨i, b, rest, n, _, hdrop, hquote, hn, rfl, rfl⟩
    case isFalse => exact absurd h (by simp)

/-- What stands in a container was read as an expression. -/
theorem expression_of_container {lo hi : Nat} {expression : Option Ast}
    (h : containerExpression r src lo hi = .ok expression) :
    ∀ a ∈ expression.toList, r.expression lo hi = .ok a := by
  unfold containerExpression at h
  split at h
  · obtain rfl := pure_eq_ok.mp h
    simp
  · obtain ⟨a, ha, rfl⟩ := map_eq_ok.mp h
    simpa using ha

/-! ### Code -/

section Code

variable {lo hi : Nat}

variable (r src lo hi) in
/-- The steps of the reader of code: it is done, passes something over, cannot find the end of a
template, or finds a tagged template, an import statement or where an element may begin. -/
theorem codeFrom_induct {motive : (flushed i : Nat) → Prop}
    (done : ∀ {flushed i : Nat},
      codeFrom r src lo hi flushed i = pure (opaqueCode src flushed hi) → motive flushed i)
    (pass : ∀ {flushed i j : Nat}, i < hi → i < j →
      codeFrom r src lo hi flushed i = codeFrom r src lo hi flushed j →
      motive flushed j → motive flushed i)
    (unclosed : ∀ {flushed i : Nat}, src[i]? = some tick →
      codeFrom r src lo hi flushed i = .error ⟨.unterminatedTemplate, i⟩ → motive flushed i)
    (template : ∀ {flushed i : Nat} {tag : Text}, i < hi → src[i]? = some tick →
      tagBefore src flushed i = some tag →
      (codeFrom r src lo hi flushed i = do
        let found ← taggedTemplate r src (tagNode (i - tag.length) tag) (i - tag.length) i
        let more ← codeFrom r src lo hi found.stop found.stop
        return opaqueCode src flushed (i - tag.length) ++ found.ast :: more) →
      (∀ found : Reading i, motive found.stop found.stop) → motive flushed i)
    (importing : ∀ {flushed i : Nat} {found : Reading i}, i < hi → importStarts src lo i = true →
      importAt src i hi = some found →
      (codeFrom r src lo hi flushed i = do
        let more ← codeFrom r src lo hi found.stop found.stop
        return opaqueCode src flushed i ++ found.ast :: more) →
      motive found.stop found.stop → motive flushed i)
    (element : ∀ {flushed i : Nat}, i < hi → src[i]? = some less →
      Scan.markupMayStart src i = true →
      (codeFrom r src lo hi flushed i = do
        match ← r.element i hi with
        | some found =>
          let more ← codeFrom r src lo hi found.stop found.stop
          return opaqueCode src flushed i ++ found.ast :: more
        | none => codeFrom r src lo hi flushed (i + 1)) →
      (∀ found : Reading i, motive found.stop found.stop) → motive flushed (i + 1) →
      motive flushed i)
    (flushed i : Nat) : motive flushed i := by
  induction hn : hi - i using Nat.strongRecOn generalizing flushed i with
  | ind n ih =>
    subst hn
    by_cases hlt : i < hi
    · have hnext {flushed j : Nat} (hj : i < j) : motive flushed j :=
        ih (hi - j) (by omega) flushed j rfl
      cases hdrop : src.drop i with
      | nil => exact done (by rw [codeFrom, if_pos hlt, hdrop])
      | cons b rest =>
        have hb := (Scan.getElem?_of_drop_eq_cons hdrop).1
        have hpass {j : Nat} (hj : i < j)
            (h : codeFrom r src lo hi flushed i = codeFrom r src lo hi flushed j) :
            motive flushed i := pass hlt hj h (hnext hj)
        cases hlead : Scan.lead b rest with
        | string quote =>
          exact hpass (j := i + 1 + (Scan.stringTail quote rest).getD 0) (by omega)
            (by rw [codeFrom, if_pos hlt, hdrop]; simp only [hlead])
        | lineComment =>
          exact hpass (j := i + 1 + Scan.lineTail rest) (by omega)
            (by rw [codeFrom, if_pos hlt, hdrop]; simp only [hlead])
        | blockComment =>
          cases htail : Scan.commentTail (rest.drop 1) with
          | none => exact done (by rw [codeFrom, if_pos hlt, hdrop]; simp only [hlead, htail])
          | some n =>
            exact hpass (j := i + 2 + n) (by omega)
              (by rw [codeFrom, if_pos hlt, hdrop]; simp only [hlead, htail])
        | template =>
          obtain rfl := Scan.eq_tick_of_lead hlead
          cases htag : tagBefore src flushed i with
          | some tag =>
            exact template hlt hb htag
              (by rw [codeFrom, if_pos hlt, hdrop]; simp only [hlead, htag])
              fun found => hnext found.advances
          | none =>
            cases htail : Scan.closeTail .template [] rest with
            | none =>
              exact unclosed hb
                (by rw [codeFrom, if_pos hlt, hdrop]; simp only [hlead, htag, htail])
            | some n =>
              exact hpass (j := i + 1 + n) (by omega)
                (by rw [codeFrom, if_pos hlt, hdrop]; simp only [hlead, htag, htail])
        | group _ | plain =>
          cases hstarts : importStarts src lo i with
          | true =>
            cases hfound : importAt src i hi with
            | some found =>
              exact importing hlt hstarts hfound
                (by rw [codeFrom, if_pos hlt, hdrop]; simp only [hlead, hstarts, hfound]; rfl)
                (hnext found.advances)
            | none =>
              exact hpass (j := i + 1) (by omega)
                (by rw [codeFrom, if_pos hlt, hdrop]; simp only [hlead, hstarts, hfound]; rfl)
          | false =>
            by_cases hmarkup : b = less ∧ Scan.markupMayStart src i
            · refine element hlt (hmarkup.1 ▸ hb) hmarkup.2 ?_ (fun found => hnext found.advances)
                (hnext (by omega))
              rw [codeFrom, if_pos hlt, hdrop]
              simp only [hlead, hstarts, if_pos hmarkup]
              rfl
            · refine hpass (j := i + 1) (by omega) ?_
              rw [codeFrom, if_pos hlt, hdrop]
              simp only [hlead, hstarts, if_neg hmarkup]
              rfl
    · exact done (by rw [codeFrom, if_neg hlt])

/-- How pieces of code come about: opaque code up to what was found, and at the end. -/
inductive CodeTrace (r : Readers) (src : Text) (lo hi : Nat) :
    (flushed i : Nat) → List Ast → Prop
  | done {flushed i : Nat} : CodeTrace r src lo hi flushed i (opaqueCode src flushed hi)
  | pass {flushed i j : Nat} {as : List Ast} (hlt : i < hi) (hj : i < j)
      (htrace : CodeTrace r src lo hi flushed j as) : CodeTrace r src lo hi flushed i as
  | template {flushed i : Nat} {tag : Text} {found : Reading i} {more : List Ast} (hlt : i < hi)
      (htick : src[i]? = some tick) (htag : tagBefore src flushed i = some tag)
      (hfound : taggedTemplate r src (tagNode (i - tag.length) tag) (i - tag.length) i = .ok found)
      (htrace : CodeTrace r src lo hi found.stop found.stop more) :
      CodeTrace r src lo hi flushed i
        (opaqueCode src flushed (i - tag.length) ++ found.ast :: more)
  | importing {flushed i : Nat} {found : Reading i} {more : List Ast} (hlt : i < hi)
      (hstarts : importStarts src lo i = true) (hfound : importAt src i hi = some found)
      (htrace : CodeTrace r src lo hi found.stop found.stop more) :
      CodeTrace r src lo hi flushed i (opaqueCode src flushed i ++ found.ast :: more)
  | element {flushed i : Nat} {found : Reading i} {more : List Ast} (hlt : i < hi)
      (hless : src[i]? = some less) (hmay : Scan.markupMayStart src i = true)
      (hfound : r.element i hi = .ok (some found))
      (htrace : CodeTrace r src lo hi found.stop found.stop more) :
      CodeTrace r src lo hi flushed i (opaqueCode src flushed i ++ found.ast :: more)

/-- Code that is read has a trace. -/
theorem codeTrace {flushed i : Nat} {as : List Ast} (h : codeFrom r src lo hi flushed i = .ok as) :
    CodeTrace r src lo hi flushed i as := by
  induction flushed, i using codeFrom_induct r src lo hi generalizing as with
  | done heq =>
    obtain rfl := pure_eq_ok.mp (heq.symm.trans h)
    exact .done
  | pass hlt hj heq ih => exact .pass hlt hj (ih (heq.symm.trans h))
  | unclosed _ heq => exact absurd (heq.symm.trans h) (by simp)
  | template hlt htick htag heq ih =>
    obtain ⟨found, hfound, h⟩ := bind_eq_ok.mp (heq.symm.trans h)
    simp only [bind_eq_ok, pure_eq_ok] at h
    obtain ⟨more, hmore, rfl⟩ := h
    exact .template hlt htick htag hfound (ih found hmore)
  | importing hlt hstarts hfound heq ih =>
    have h := heq.symm.trans h
    simp only [bind_eq_ok, pure_eq_ok] at h
    obtain ⟨more, hmore, rfl⟩ := h
    exact .importing hlt hstarts hfound (ih hmore)
  | element hlt hless hmay heq ih ih' =>
    obtain ⟨found, hfound, h⟩ := bind_eq_ok.mp (heq.symm.trans h)
    cases found with
    | none => exact .pass hlt (Nat.lt_succ_self _) (ih' h)
    | some found =>
      simp only [bind_eq_ok, pure_eq_ok] at h
      obtain ⟨more, hmore, rfl⟩ := h
      exact .element hlt hless hmay hfound (ih found hmore)

end Code

/-! ### Opening tags -/

/-- How an attribute whose name, at `lo`, ends at `nameStop` comes about: without a value, or with
a value of one of three kinds behind an equals sign. -/
inductive AttributeTrace (r : Readers) (src : Text) (lo nameStop hi : Nat) : Reading lo → Prop
  | bare (hadv : lo < nameStop) : AttributeTrace r src lo nameStop hi
      ⟨Ast.placed lo nameStop (.attr (src.slice lo nameStop) none), nameStop, hadv⟩
  | quoted {valueLo n : Nat} {b : Byte} {rest : Text} (hle : nameStop < valueLo)
      (hvalueLo : valueLo = Scan.skipSpace src (Scan.skipSpace src nameStop hi + 1) hi)
      (hslice : src.slice valueLo hi = b :: rest) (hquote : b.isQuote = true)
      (hfind : rest.findIdx? (· == b) = some n) (hadv : lo < valueLo + n + 2) :
      AttributeTrace r src lo nameStop hi
        ⟨Ast.placed lo (valueLo + n + 2) (.attr (src.slice lo nameStop)
          (some (Ast.placed valueLo (valueLo + n + 2) (.str (rest.take n) (Char.ofNat b.toNat))))),
          valueLo + n + 2, hadv⟩
  | braced {valueLo n : Nat} {expression : Option Ast} (hle : nameStop < valueLo)
      (hvalueLo : valueLo = Scan.skipSpace src (Scan.skipSpace src nameStop hi + 1) hi)
      (hbrace : src[valueLo]? = some openBrace)
      (hclose : Scan.closeTail (.group closeBrace) [] (src.drop (valueLo + 1)) = some n)
      (hlt : valueLo + n < hi)
      (hexpression : containerExpression r src (valueLo + 1) (valueLo + n) = .ok expression)
      (hadv : lo < valueLo + n + 1) :
      AttributeTrace r src lo nameStop hi
        ⟨Ast.placed lo (valueLo + n + 1) (.attr (src.slice lo nameStop)
          (some (Ast.placed valueLo (valueLo + n + 1) (.container expression)))),
          valueLo + n + 1, hadv⟩
  | element {valueLo : Nat} {value : Reading valueLo} (hle : nameStop < valueLo)
      (hvalueLo : valueLo = Scan.skipSpace src (Scan.skipSpace src nameStop hi + 1) hi)
      (hless : src[valueLo]? = some less) (hvalue : r.element valueLo hi = .ok (some value))
      (hadv : lo < value.stop) :
      AttributeTrace r src lo nameStop hi
        ⟨Ast.placed lo value.stop (.attr (src.slice lo nameStop) (some value.ast)), value.stop,
          hadv⟩

/-- An attribute that is read has a trace. -/
theorem attributeTrace {lo nameStop hi : Nat} {hlo : lo < nameStop} {found : Reading lo}
    (h : attributeAt r src lo nameStop hi hlo = .ok (some found)) :
    AttributeTrace r src lo nameStop hi found := by
  have hle : nameStop < Scan.skipSpace src (Scan.skipSpace src nameStop hi + 1) hi :=
    Nat.lt_of_lt_of_le (Nat.lt_succ_of_le (Scan.le_skipSpace ..)) (Scan.le_skipSpace ..)
  unfold attributeAt at h
  dsimp only at h
  by_cases hequals : (src.slice (Scan.skipSpace src nameStop hi) hi).head? = some equals
  · rw [if_pos hequals] at h
    cases hslice : src.slice (Scan.skipSpace src (Scan.skipSpace src nameStop hi + 1) hi) hi with
    | nil =>
      rw [hslice] at h
      exact absurd h pure_none_ne_some
    | cons b rest =>
      have hb := Scan.getElem?_of_slice_eq_cons hslice
      rw [hslice] at h
      dsimp only at h
      by_cases hquote : b.isQuote = true
      · rw [if_pos hquote] at h
        cases hfind : rest.findIdx? (· == b) with
        | none =>
          rw [hfind] at h
          exact absurd h pure_none_ne_some
        | some n =>
          rw [hfind] at h
          obtain rfl := Option.some.inj (pure_eq_ok.mp h)
          exact .quoted hle rfl hslice hquote hfind _
      · rw [if_neg hquote] at h
        by_cases hbrace : b = openBrace
        · rw [if_pos hbrace] at h
          cases hclose : Scan.closeTail (.group closeBrace) []
              (src.drop (Scan.skipSpace src (Scan.skipSpace src nameStop hi + 1) hi + 1)) with
          | none =>
            rw [hclose] at h
            exact absurd h pure_none_ne_some
          | some n =>
            rw [hclose] at h
            dsimp only at h
            by_cases hlt : Scan.skipSpace src (Scan.skipSpace src nameStop hi + 1) hi + n < hi
            · rw [if_pos hlt] at h
              simp only [bind_eq_ok, pure_eq_ok, Option.some.injEq] at h
              obtain ⟨expression, hexpression, rfl⟩ := h
              exact .braced hle rfl (hbrace ▸ hb) hclose hlt hexpression _
            · rw [if_neg hlt] at h
              exact absurd h pure_none_ne_some
        · rw [if_neg hbrace] at h
          by_cases hless : b = less
          · rw [if_pos hless] at h
            obtain ⟨value, hvalue, h⟩ := bind_eq_ok.mp h
            cases value with
            | none => exact absurd h pure_none_ne_some
            | some value =>
              obtain rfl := Option.some.inj (pure_eq_ok.mp h)
              exact .element hle rfl (hless ▸ hb) hvalue _
          · rw [if_neg hless] at h
            exact absurd h pure_none_ne_some
  · rw [if_neg hequals] at h
    obtain rfl := Option.some.inj (pure_eq_ok.mp h)
    exact .bare hlo

section Tags

variable {hi : Nat}

variable (r src hi) in
/-- The steps of the reader of opening tags: it finds no tag, the end of one of the two kinds of
tags, or where an argument is spread or an attribute has its name. -/
theorem tagTail_induct {motive : (pos : Nat) → Prop}
    (absent : ∀ {pos : Nat}, tagTail r src hi pos = pure none → motive pos)
    (selfClosing : ∀ {pos here : Nat} {rest : Text} (hadv : pos < here + 2),
      here = Scan.skipSpace src pos hi → here < hi → src.drop here = slash :: greater :: rest →
      tagTail r src hi pos = pure (some ⟨[], true, here + 2, hadv⟩) → motive pos)
    (closing : ∀ {pos here : Nat} {rest : Text} (hadv : pos < here + 1),
      here = Scan.skipSpace src pos hi → here < hi → src.drop here = greater :: rest →
      tagTail r src hi pos = pure (some ⟨[], false, here + 1, hadv⟩) → motive pos)
    (spread : ∀ {pos here n inner : Nat} {rest : Text} (hle : pos ≤ here + n + 1),
      here = Scan.skipSpace src pos hi → here < hi → src.drop here = openBrace :: rest →
      Scan.closeTail (.group closeBrace) [] rest = some n → here + n < hi →
      inner = Scan.skipSpace src (here + 1) (here + n) →
      [dot, dot, dot].isPrefixOf (src.slice inner (here + n)) = true →
      (tagTail r src hi pos = do
        let argument ← r.expression (inner + 3) (here + n)
        let some tail ← tagTail r src hi (here + n + 1) | return none
        return some (tail.cons (Ast.placed here (here + n + 1) (.spread argument)) hle)) →
      motive (here + n + 1) → motive pos)
    (attr : ∀ {pos here nameStop : Nat} {b : Byte} {rest : Text} (hhere : pos ≤ here)
      (hname : here < nameStop), here = Scan.skipSpace src pos hi → here < hi →
      src.drop here = b :: rest → b.isIdentStart = true →
      nameStop = here + 1 + (rest.takeWhile Byte.isNameChar).length →
      (tagTail r src hi pos = do
        let some found ← attributeAt r src here nameStop hi hname | return none
        let some tail ← tagTail r src hi found.stop | return none
        return some
          (tail.cons found.ast (Nat.le_of_lt (Nat.lt_of_le_of_lt hhere found.advances)))) →
      (∀ found : Reading here, motive found.stop) → motive pos)
    (pos : Nat) : motive pos := by
  induction hn : hi - pos using Nat.strongRecOn generalizing pos with
  | ind n ih =>
    subst hn
    have hhere : pos ≤ Scan.skipSpace src pos hi := Scan.le_skipSpace ..
    have hunfold := tagTail.eq_def r src hi pos
    dsimp only at hunfold
    by_cases hlt : Scan.skipSpace src pos hi < hi
    · have hnext {stop : Nat} (hstop : Scan.skipSpace src pos hi < stop) : motive stop :=
        ih (hi - stop) (by omega) stop rfl
      rw [if_pos hlt] at hunfold
      cases hdrop : src.drop (Scan.skipSpace src pos hi) with
      | nil => exact absent (by rw [hunfold, hdrop])
      | cons b rest =>
        rw [hdrop] at hunfold
        dsimp only at hunfold
        by_cases hslash : b = slash ∧ rest.head? = some greater
        · rw [if_pos hslash] at hunfold
          obtain ⟨rest, rfl⟩ := List.head?_eq_some_iff.mp hslash.2
          exact selfClosing _ rfl hlt (hslash.1 ▸ hdrop) hunfold
        rw [if_neg hslash] at hunfold
        by_cases hgreater : b = greater
        · rw [if_pos hgreater] at hunfold
          exact closing _ rfl hlt (hgreater ▸ hdrop) hunfold
        rw [if_neg hgreater] at hunfold
        by_cases hbrace : b = openBrace
        · rw [if_pos hbrace] at hunfold
          cases hclose : Scan.closeTail (.group closeBrace) [] rest with
          | none =>
            rw [hclose] at hunfold
            exact absent hunfold
          | some n =>
            rw [hclose] at hunfold
            dsimp only at hunfold
            split at hunfold
            case isTrue hspread =>
              refine spread (Nat.le_trans hhere (Nat.le_add_right _ (n + 1))) rfl hlt
                (hbrace ▸ hdrop) hclose hspread.1 rfl hspread.2 (hunfold.trans ?_)
                (hnext (by omega))
              exact bind_congr fun argument => bind_congr fun tail => by cases tail <;> rfl
            case isFalse => exact absent hunfold
        rw [if_neg hbrace] at hunfold
        by_cases hname : b.isIdentStart = true
        · rw [if_pos hname] at hunfold
          refine attr hhere (by omega) rfl hlt hdrop hname rfl (hunfold.trans ?_)
            fun found => hnext found.advances
          refine bind_congr fun found => ?_
          cases found with
          | none => rfl
          | some found => exact bind_congr fun tail => by cases tail <;> rfl
        · rw [if_neg hname] at hunfold
          exact absent hunfold
    · rw [if_neg hlt] at hunfold
      exact absent hunfold

/-- How the attributes and the end of an opening tag come about. -/
inductive TagTrace (r : Readers) (src : Text) (hi : Nat) : (pos : Nat) → TagTail pos → Prop
  | selfClosing {pos here : Nat} {rest : Text} (hadv : pos < here + 2)
      (hhere : here = Scan.skipSpace src pos hi) (hlt : here < hi)
      (hdrop : src.drop here = slash :: greater :: rest) :
      TagTrace r src hi pos ⟨[], true, here + 2, hadv⟩
  | closing {pos here : Nat} {rest : Text} (hadv : pos < here + 1)
      (hhere : here = Scan.skipSpace src pos hi) (hlt : here < hi)
      (hdrop : src.drop here = greater :: rest) :
      TagTrace r src hi pos ⟨[], false, here + 1, hadv⟩
  | spread {pos here n inner : Nat} {rest : Text} {argument : Ast} {tail : TagTail (here + n + 1)}
      (hle : pos ≤ here + n + 1) (hhere : here = Scan.skipSpace src pos hi)
      (hdrop : src.drop here = openBrace :: rest)
      (hclose : Scan.closeTail (.group closeBrace) [] rest = some n) (hlt : here + n < hi)
      (hinner : inner = Scan.skipSpace src (here + 1) (here + n))
      (hdots : [dot, dot, dot].isPrefixOf (src.slice inner (here + n)) = true)
      (hargument : r.expression (inner + 3) (here + n) = .ok argument)
      (htrace : TagTrace r src hi (here + n + 1) tail) :
      TagTrace r src hi pos (tail.cons (Ast.placed here (here + n + 1) (.spread argument)) hle)
  | attr {pos here nameStop : Nat} {b : Byte} {rest : Text} {hname : here < nameStop}
      {found : Reading here} {tail : TagTail found.stop} (hle : pos ≤ found.stop)
      (hhere : here = Scan.skipSpace src pos hi) (hlt : here < hi)
      (hdrop : src.drop here = b :: rest) (hb : b.isIdentStart = true)
      (hnameStop : nameStop = here + 1 + (rest.takeWhile Byte.isNameChar).length)
      (hfound : attributeAt r src here nameStop hi hname = .ok (some found))
      (htrace : TagTrace r src hi found.stop tail) :
      TagTrace r src hi pos (tail.cons found.ast hle)

/-- An opening tag that is read has a trace. -/
theorem tagTrace {pos : Nat} {tail : TagTail pos} (h : tagTail r src hi pos = .ok (some tail)) :
    TagTrace r src hi pos tail := by
  induction pos using tagTail_induct r src hi with
  | absent heq => exact absurd (heq.symm.trans h) pure_none_ne_some
  | selfClosing hadv hhere hlt hdrop heq =>
    obtain rfl := Option.some.inj (pure_eq_ok.mp (heq.symm.trans h))
    exact .selfClosing hadv hhere hlt hdrop
  | closing hadv hhere hlt hdrop heq =>
    obtain rfl := Option.some.inj (pure_eq_ok.mp (heq.symm.trans h))
    exact .closing hadv hhere hlt hdrop
  | spread hle hhere hlt hdrop hclose hin hinner hdots heq ih =>
    obtain ⟨argument, hargument, h⟩ := bind_eq_ok.mp (heq.symm.trans h)
    obtain ⟨more, hmore, h⟩ := bind_eq_ok.mp h
    cases more with
    | none => exact absurd h pure_none_ne_some
    | some more =>
      obtain rfl := Option.some.inj (pure_eq_ok.mp h)
      exact .spread hle hhere hdrop hclose hin hinner hdots hargument (ih hmore)
  | attr hle hname hhere hlt hdrop hb hnameStop heq ih =>
    obtain ⟨found, hfound, h⟩ := bind_eq_ok.mp (heq.symm.trans h)
    cases found with
    | none => exact absurd h pure_none_ne_some
    | some found =>
      obtain ⟨more, hmore, h⟩ := bind_eq_ok.mp h
      cases more with
      | none => exact absurd h pure_none_ne_some
      | some more =>
        obtain rfl := Option.some.inj (pure_eq_ok.mp h)
        exact .attr _ hhere hlt hdrop hb hnameStop hfound (ih found hmore)

end Tags

/-! ### Elements -/

/-- A closing tag ends with `>`. -/
theorem closingTag_eq_ok {name : Text} {hi pos : Nat} {inner : Content pos}
    (h : closingTag src name hi pos = .ok inner) :
    ∃ close, (src.slice close hi).head? = some greater ∧ inner.stop = close + 1 ∧
      inner.children = [] ∧ inner.closing = src.slice pos (close + 1) := by
  unfold closingTag at h
  dsimp only at h
  split at h
  case isTrue hgreater =>
    split at h
    · obtain rfl := Except.ok.inj h
      exact ⟨_, hgreater, rfl, rfl, rfl⟩
    · exact absurd h (by simp)
  case isFalse => exact absurd h (by simp)

section Contents

variable {name : Text} {lo hi : Nat}

variable (r src name lo hi) in
/-- The steps of the reader of content: it fails, reads the closing tag, or finds where a child, a
container or text begins. -/
theorem content_induct {motive : (pos : Nat) → Prop}
    (unclosed : ∀ {pos : Nat},
      content r src name lo hi pos = .error ⟨.unclosedElement name, lo⟩ → motive pos)
    (unclosedContainer : ∀ {pos : Nat}, src[pos]? = some openBrace →
      content r src name lo hi pos = .error ⟨.unclosedContainer, pos⟩ → motive pos)
    (closing : ∀ {pos : Nat}, src[pos]? = some less →
      content r src name lo hi pos = closingTag src name hi pos → motive pos)
    (child : ∀ {pos : Nat}, src[pos]? = some less →
      (content r src name lo hi pos = do
        let some found ← r.element pos hi | .error ⟨.strayLess name, pos⟩
        let more ← content r src name lo hi found.stop
        return more.cons found.ast (Nat.le_of_lt found.advances)) →
      (∀ found : Reading pos, motive found.stop) → motive pos)
    (container : ∀ {pos n : Nat} {rest : Text} (hle : pos ≤ pos + n + 1),
      src.drop pos = openBrace :: rest →
      Scan.closeTail (.group closeBrace) [] rest = some n → pos + n < hi →
      (content r src name lo hi pos = do
        let expression ← containerExpression r src (pos + 1) (pos + n)
        let more ← content r src name lo hi (pos + n + 1)
        return more.cons (Ast.placed pos (pos + n + 1) (.container expression)) hle) →
      motive (pos + n + 1) → motive pos)
    (text : ∀ {pos stop : Nat} (hadv : pos < stop), pos < hi →
      stop = pos + 1 +
        ((src.slice (pos + 1) hi).takeWhile fun b => b != less && b != openBrace).length →
      (content r src name lo hi pos = do
        let more ← content r src name lo hi stop
        return more.cons (Ast.placed pos stop (.text (src.slice pos stop)))
          (Nat.le_of_lt hadv)) →
      motive stop → motive pos)
    (pos : Nat) : motive pos := by
  induction hn : hi - pos using Nat.strongRecOn generalizing pos with
  | ind n ih =>
    subst hn
    have hunfold := content.eq_def r src name lo hi pos
    by_cases hlt : pos < hi
    · have hnext {stop : Nat} (hstop : pos < stop) : motive stop :=
        ih (hi - stop) (by omega) stop rfl
      rw [if_pos hlt] at hunfold
      cases hdrop : src.drop pos with
      | nil =>
        rw [hdrop] at hunfold
        exact unclosed hunfold
      | cons b rest =>
        have hb := (Scan.getElem?_of_drop_eq_cons hdrop).1
        rw [hdrop] at hunfold
        dsimp only at hunfold
        by_cases hclosing : b = less ∧ rest.head? = some slash
        · rw [if_pos hclosing] at hunfold
          exact closing (hclosing.1 ▸ hb) hunfold
        rw [if_neg hclosing] at hunfold
        by_cases hless : b = less
        · rw [if_pos hless] at hunfold
          refine child (hless ▸ hb) (hunfold.trans ?_) fun found => hnext found.advances
          exact bind_congr fun found => by cases found <;> rfl
        rw [if_neg hless] at hunfold
        by_cases hbrace : b = openBrace
        · rw [if_pos hbrace] at hunfold
          cases hclose : Scan.closeTail (.group closeBrace) [] rest with
          | none =>
            rw [hclose] at hunfold
            exact unclosedContainer (hbrace ▸ hb) hunfold
          | some n =>
            rw [hclose] at hunfold
            dsimp only at hunfold
            by_cases hin : pos + n < hi
            · rw [if_pos hin] at hunfold
              exact container (Nat.le_add_right pos (n + 1)) (hbrace ▸ hdrop) hclose hin hunfold
                (hnext (by omega))
            · rw [if_neg hin] at hunfold
              exact unclosedContainer (hbrace ▸ hb) hunfold
        · rw [if_neg hbrace] at hunfold
          exact text (by omega) hlt rfl hunfold (hnext (by omega))
    · rw [if_neg hlt] at hunfold
      exact unclosed hunfold

/-- How the content of an element comes about. -/
inductive ContentTrace (r : Readers) (src : Text) (name : Text) (lo hi : Nat) :
    (pos : Nat) → Content pos → Prop
  | closing {pos : Nat} {inner : Content pos} (hless : src[pos]? = some less)
      (hinner : closingTag src name hi pos = .ok inner) :
      ContentTrace r src name lo hi pos inner
  | child {pos : Nat} {found : Reading pos} {more : Content found.stop} (hle : pos ≤ found.stop)
      (hless : src[pos]? = some less) (hfound : r.element pos hi = .ok (some found))
      (htrace : ContentTrace r src name lo hi found.stop more) :
      ContentTrace r src name lo hi pos (more.cons found.ast hle)
  | container {pos n : Nat} {rest : Text} {expression : Option Ast} {more : Content (pos + n + 1)}
      (hle : pos ≤ pos + n + 1) (hdrop : src.drop pos = openBrace :: rest)
      (hclose : Scan.closeTail (.group closeBrace) [] rest = some n) (hlt : pos + n < hi)
      (hexpression : containerExpression r src (pos + 1) (pos + n) = .ok expression)
      (htrace : ContentTrace r src name lo hi (pos + n + 1) more) :
      ContentTrace r src name lo hi pos
        (more.cons (Ast.placed pos (pos + n + 1) (.container expression)) hle)
  | text {pos stop : Nat} {more : Content stop} (hle : pos ≤ stop) (hlt : pos < hi)
      (hstop : stop = pos + 1 +
        ((src.slice (pos + 1) hi).takeWhile fun b => b != less && b != openBrace).length)
      (htrace : ContentTrace r src name lo hi stop more) :
      ContentTrace r src name lo hi pos
        (more.cons (Ast.placed pos stop (.text (src.slice pos stop))) hle)

/-- Content that is read has a trace. -/
theorem contentTrace {pos : Nat} {inner : Content pos}
    (h : content r src name lo hi pos = .ok inner) : ContentTrace r src name lo hi pos inner := by
  induction pos using content_induct r src name lo hi with
  | unclosed heq => exact absurd (heq.symm.trans h) (by simp)
  | unclosedContainer _ heq => exact absurd (heq.symm.trans h) (by simp)
  | closing hless heq => exact .closing hless (heq.symm.trans h)
  | child hless heq ih =>
    obtain ⟨found, hfound, h⟩ := bind_eq_ok.mp (heq.symm.trans h)
    cases found with
    | none => exact absurd h (by simp)
    | some found =>
      obtain ⟨more, hmore, h⟩ := bind_eq_ok.mp h
      obtain rfl := pure_eq_ok.mp h
      exact .child _ hless hfound (ih found hmore)
  | container hle hdrop hclose hlt heq ih =>
    have h := heq.symm.trans h
    simp only [bind_eq_ok, pure_eq_ok] at h
    obtain ⟨expression, hexpression, more, hmore, rfl⟩ := h
    exact .container _ hdrop hclose hlt hexpression (ih hmore)
  | text hadv hlt hstop heq ih =>
    obtain ⟨more, hmore, h⟩ := bind_eq_ok.mp (heq.symm.trans h)
    obtain rfl := pure_eq_ok.mp h
    exact .text _ hlt hstop (ih hmore)

end Contents

/-- How an element comes about: its opening tag ends it, or its content does. -/
inductive ElementTrace (r : Readers) (src : Text) (lo hi : Nat) : Reading lo → Prop
  | alone {tag : TagTail (Scan.nameEnd src (lo + 1))} (hadv : lo < tag.stop)
      (htag : tagTail r src hi (Scan.nameEnd src (lo + 1)) = .ok (some tag))
      (hclosing : tag.selfClosing = true) :
      ElementTrace r src lo hi
        ⟨Ast.placed lo tag.stop (.element (Ast.placed lo tag.stop
          (.opening (src.slice (lo + 1) (Scan.nameEnd src (lo + 1))) tag.attributes
            tag.selfClosing)) [] none), tag.stop, hadv⟩
  | around {tag : TagTail (Scan.nameEnd src (lo + 1))} {inner : Content tag.stop}
      (hadv : lo < tag.stop) (hadv' : lo < inner.stop)
      (htag : tagTail r src hi (Scan.nameEnd src (lo + 1)) = .ok (some tag))
      (hinner : content r src (src.slice (lo + 1) (Scan.nameEnd src (lo + 1))) lo hi tag.stop =
        .ok inner) :
      ElementTrace r src lo hi
        ⟨Ast.placed lo inner.stop (.element (Ast.placed lo tag.stop
          (.opening (src.slice (lo + 1) (Scan.nameEnd src (lo + 1))) tag.attributes
            tag.selfClosing)) inner.children (some inner.closing)), inner.stop, hadv'⟩

/-- An element that is read has a trace. -/
theorem elementTrace {lo hi : Nat} {found : Reading lo}
    (h : element r src lo hi = .ok (some found)) : ElementTrace r src lo hi found := by
  have hname : lo + 1 ≤ Scan.nameEnd src (lo + 1) := Scan.le_nameEnd ..
  unfold element at h
  dsimp only at h
  split at h
  · exact absurd h pure_none_ne_some
  split at h
  · exact absurd h pure_none_ne_some
  obtain ⟨tag, htag, h⟩ := bind_eq_ok.mp h
  cases tag with
  | none => exact absurd h pure_none_ne_some
  | some tag =>
    have hadv := tag.advances
    dsimp only at h
    split at h
    case isTrue hclosing =>
      obtain rfl := Option.some.inj (pure_eq_ok.mp h)
      exact .alone (by omega) htag hclosing
    case isFalse =>
      simp only [bind_eq_ok, pure_eq_ok, Option.some.injEq] at h
      obtain ⟨inner, hinner, rfl⟩ := h
      exact .around (by omega) _ htag hinner

/-! ### Expressions -/

section Chains

variable {lo hi : Nat}

variable (r src hi) in
/-- The steps of the reader of chains: it is done, finds nothing that fits, or finds a member,
arguments or a template. -/
theorem chain_induct {motive : (operand : Ast) → (pos : Nat) → lo < pos → Prop}
    (done : ∀ {operand : Ast} {pos : Nat} (hlo : lo < pos),
      chain r src lo hi operand pos hlo = pure (some ⟨operand, pos, hlo⟩) → motive operand pos hlo)
    (absent : ∀ {operand : Ast} {pos : Nat} (hlo : lo < pos),
      chain r src lo hi operand pos hlo = pure none → motive operand pos hlo)
    (member : ∀ {operand : Ast} {pos n : Nat} {rest : Text} (hlo : lo < pos)
      (hstop : lo < pos + 1 + n), src.drop pos = dot :: rest → n = Scan.identLength rest →
      chain r src lo hi operand pos hlo = chain r src lo hi
        (Ast.placed lo (pos + 1 + n) (.member operand (rest.take n))) (pos + 1 + n) hstop →
      motive (Ast.placed lo (pos + 1 + n) (.member operand (rest.take n))) (pos + 1 + n) hstop →
      motive operand pos hlo)
    (call : ∀ {operand : Ast} {pos n : Nat} {rest : Text} {ranges : List Span} (hlo : lo < pos)
      (hstop : lo < pos + n + 1), src.drop pos = openParen :: rest →
      Scan.closeTail (.group closeParen) [] rest = some n → pos + n < hi →
      Scan.segments src (pos + 1) (pos + n) = some ranges →
      (chain r src lo hi operand pos hlo = do
        let arguments ← r.expressions ranges
        chain r src lo hi (Ast.placed lo (pos + n + 1) (.call operand arguments)) (pos + n + 1)
          hstop) →
      (∀ arguments,
        motive (Ast.placed lo (pos + n + 1) (.call operand arguments)) (pos + n + 1) hstop) →
      motive operand pos hlo)
    (template : ∀ {operand : Ast} {pos : Nat} (hlo : lo < pos), src[pos]? = some tick →
      (chain r src lo hi operand pos hlo = do
        let tagged ← taggedTemplate r src operand lo pos
        chain r src lo hi tagged.ast tagged.stop (Nat.lt_trans hlo tagged.advances)) →
      (∀ tagged : Reading pos,
        motive tagged.ast tagged.stop (Nat.lt_trans hlo tagged.advances)) →
      motive operand pos hlo)
    (operand : Ast) (pos : Nat) (hlo : lo < pos) : motive operand pos hlo := by
  induction hn : hi - pos using Nat.strongRecOn generalizing operand pos hlo with
  | ind n ih =>
    subst hn
    have hunfold := chain.eq_def r src lo hi operand pos hlo
    by_cases hlt : pos < hi
    · have hnext {operand : Ast} {stop : Nat} (hstop : pos < stop) :
          motive operand stop (Nat.lt_trans hlo hstop) :=
        ih (hi - stop) (by omega) operand stop _ rfl
      rw [if_pos hlt] at hunfold
      cases hdrop : src.drop pos with
      | nil =>
        rw [hdrop] at hunfold
        exact done hlo hunfold
      | cons b rest =>
        rw [hdrop] at hunfold
        dsimp only at hunfold
        by_cases hmember : b = dot ∧ pos + 1 < hi ∧ rest.head?.any Byte.isIdentStart = true
        · rw [if_pos hmember] at hunfold
          exact member hlo _ (hmember.1 ▸ hdrop) rfl hunfold (hnext (by omega))
        rw [if_neg hmember] at hunfold
        by_cases hparen : b = openParen
        · rw [if_pos hparen] at hunfold
          cases hclose : Scan.closeTail (.group closeParen) [] rest with
          | none =>
            rw [hclose] at hunfold
            exact absent hlo hunfold
          | some n =>
            rw [hclose] at hunfold
            dsimp only at hunfold
            by_cases hin : pos + n < hi
            · rw [if_pos hin] at hunfold
              cases hranges : Scan.segments src (pos + 1) (pos + n) with
              | none =>
                rw [hranges] at hunfold
                exact absent hlo hunfold
              | some ranges =>
                rw [hranges] at hunfold
                exact call hlo _ (hparen ▸ hdrop) hclose hin hranges hunfold
                  fun arguments => hnext (by omega)
            · rw [if_neg hin] at hunfold
              exact absent hlo hunfold
        rw [if_neg hparen] at hunfold
        by_cases htick : b = tick
        · rw [if_pos htick] at hunfold
          cases hend : Scan.templateEnd src pos with
          | none =>
            rw [hend] at hunfold
            exact absent hlo hunfold
          | some stop =>
            rw [hend] at hunfold
            dsimp only at hunfold
            by_cases hin : stop ≤ hi
            · rw [if_pos hin] at hunfold
              exact template hlo (htick ▸ (Scan.getElem?_of_drop_eq_cons hdrop).1) hunfold
                fun tagged => hnext tagged.advances
            · rw [if_neg hin] at hunfold
              exact absent hlo hunfold
        · rw [if_neg htick] at hunfold
          exact done hlo hunfold
    · rw [if_neg hlt] at hunfold
      exact done hlo hunfold

/-- How an operand with what is chained to it comes about. -/
inductive ChainTrace (r : Readers) (src : Text) (lo hi : Nat) :
    (operand : Ast) → (pos : Nat) → Reading lo → Prop
  | done {operand : Ast} {pos : Nat} (hlo : lo < pos) :
      ChainTrace r src lo hi operand pos ⟨operand, pos, hlo⟩
  | member {operand : Ast} {pos n : Nat} {rest : Text} {found : Reading lo} (hlo : lo < pos)
      (hdrop : src.drop pos = dot :: rest) (hn : n = Scan.identLength rest)
      (htrace : ChainTrace r src lo hi
        (Ast.placed lo (pos + 1 + n) (.member operand (rest.take n))) (pos + 1 + n) found) :
      ChainTrace r src lo hi operand pos found
  | call {operand : Ast} {pos n : Nat} {rest : Text} {ranges : List Span} {arguments : List Ast}
      {found : Reading lo} (hlo : lo < pos) (hdrop : src.drop pos = openParen :: rest)
      (hclose : Scan.closeTail (.group closeParen) [] rest = some n) (hlt : pos + n < hi)
      (hranges : Scan.segments src (pos + 1) (pos + n) = some ranges)
      (harguments : r.expressions ranges = .ok arguments)
      (htrace : ChainTrace r src lo hi
        (Ast.placed lo (pos + n + 1) (.call operand arguments)) (pos + n + 1) found) :
      ChainTrace r src lo hi operand pos found
  | template {operand : Ast} {pos : Nat} {tagged : Reading pos} {found : Reading lo}
      (hlo : lo < pos) (htick : src[pos]? = some tick)
      (htagged : taggedTemplate r src operand lo pos = .ok tagged)
      (htrace : ChainTrace r src lo hi tagged.ast tagged.stop found) :
      ChainTrace r src lo hi operand pos found

/-- A chain that is read has a trace. -/
theorem chainTrace {operand : Ast} {pos : Nat} {hlo : lo < pos} {found : Reading lo}
    (h : chain r src lo hi operand pos hlo = .ok (some found)) :
    ChainTrace r src lo hi operand pos found := by
  induction operand, pos, hlo using chain_induct r src hi with
  | done hlo heq =>
    obtain rfl := Option.some.inj (pure_eq_ok.mp (heq.symm.trans h))
    exact .done hlo
  | absent hlo heq => exact absurd (heq.symm.trans h) pure_none_ne_some
  | member hlo hstop hdrop hn heq ih => exact .member hlo hdrop hn (ih (heq.symm.trans h))
  | call hlo hstop hdrop hclose hlt hranges heq ih =>
    obtain ⟨arguments, harguments, h⟩ := bind_eq_ok.mp (heq.symm.trans h)
    exact .call hlo hdrop hclose hlt hranges harguments (ih arguments h)
  | template hlo htick heq ih =>
    obtain ⟨tagged, htagged, h⟩ := bind_eq_ok.mp (heq.symm.trans h)
    exact .template hlo htick htagged (ih tagged h)

end Chains

/-- How an operand comes about: as an element, or as what is chained to one of three leaves. -/
inductive OperandTrace (r : Readers) (src : Text) (lo hi : Nat) : Reading lo → Prop
  | string {q : Byte} {rest : Text} {n : Nat} {found : Reading lo}
      (hdrop : src.drop lo = q :: rest) (hquote : q.isQuote = true)
      (htail : Scan.stringTail q rest = some n) (hle : lo + 1 + n ≤ hi)
      (htrace : ChainTrace r src lo hi (Ast.placed lo (lo + 1 + n)
        (.str (Text.unescape (rest.take (n - 1))) (Char.ofNat q.toNat))) (lo + 1 + n) found) :
      OperandTrace r src lo hi found
  | array {rest : Text} {n : Nat} {ranges : List Span} {elements : List Ast} {found : Reading lo}
      (hdrop : src.drop lo = openBracket :: rest)
      (hclose : Scan.closeTail (.group closeBracket) [] rest = some n) (hlt : lo + n < hi)
      (hranges : Scan.segments src (lo + 1) (lo + n) = some ranges)
      (helements : r.expressions ranges = .ok elements)
      (htrace : ChainTrace r src lo hi (Ast.placed lo (lo + n + 1) (.array elements)) (lo + n + 1)
        found) :
      OperandTrace r src lo hi found
  | element {found : Reading lo} (hless : src[lo]? = some less)
      (hfound : r.element lo hi = .ok (some found)) : OperandTrace r src lo hi found
  | ident {b : Byte} {rest : Text} {stop : Nat} {found : Reading lo}
      (hdrop : src.drop lo = b :: rest) (hb : b.isIdentStart = true)
      (hstop : stop = lo + 1 + (rest.takeWhile Byte.isIdentChar).length)
      (htrace : ChainTrace r src lo hi
        (Ast.placed lo stop (.ident (b :: rest.takeWhile Byte.isIdentChar))) stop found) :
      OperandTrace r src lo hi found

/-- An operand that is read has a trace. -/
theorem operandTrace {lo hi : Nat} {found : Reading lo}
    (h : operand r src lo hi = .ok (some found)) : OperandTrace r src lo hi found := by
  unfold operand at h
  cases hdrop : src.drop lo with
  | nil =>
    rw [hdrop] at h
    exact absurd h pure_none_ne_some
  | cons b rest =>
    have hb := (Scan.getElem?_of_drop_eq_cons hdrop).1
    rw [hdrop] at h
    dsimp only at h
    by_cases hquote : b.isQuote = true
    · rw [if_pos hquote] at h
      cases htail : Scan.stringTail b rest with
      | none =>
        rw [htail] at h
        exact absurd h pure_none_ne_some
      | some n =>
        rw [htail] at h
        dsimp only at h
        split at h
        case isTrue hle => exact .string hdrop hquote htail hle (chainTrace h)
        case isFalse => exact absurd h pure_none_ne_some
    rw [if_neg hquote] at h
    by_cases hbracket : b = openBracket
    · rw [if_pos hbracket] at h
      cases hclose : Scan.closeTail (.group closeBracket) [] rest with
      | none =>
        rw [hclose] at h
        exact absurd h pure_none_ne_some
      | some n =>
        rw [hclose] at h
        dsimp only at h
        split at h
        case isTrue hlt =>
          cases hranges : Scan.segments src (lo + 1) (lo + n) with
          | none =>
            rw [hranges] at h
            exact absurd h pure_none_ne_some
          | some ranges =>
            rw [hranges] at h
            obtain ⟨elements, helements, h⟩ := bind_eq_ok.mp h
            exact .array (hbracket ▸ hdrop) hclose hlt hranges helements (chainTrace h)
        case isFalse => exact absurd h pure_none_ne_some
    rw [if_neg hbracket] at h
    by_cases hless : b = less
    · rw [if_pos hless] at h
      exact .element (hless ▸ hb) h
    rw [if_neg hless] at h
    by_cases hident : b.isIdentStart = true
    · rw [if_pos hident] at h
      exact .ident hdrop hident rfl (chainTrace h)
    · rw [if_neg hident] at h
      exact absurd h pure_none_ne_some

/-- How an expression comes about: from white space, from an operand that fills the range, or from
code. -/
inductive ExpressionTrace (r : Readers) (src : Text) (lo hi : Nat) : Ast → Prop
  | blank (hblank : (shrink src lo hi).lo = (shrink src lo hi).hi) :
      ExpressionTrace r src lo hi (Ast.placed lo hi (.fragment []))
  | operand {found : Reading (shrink src lo hi).lo}
      (hfound : operand r src (shrink src lo hi).lo (shrink src lo hi).hi = .ok (some found))
      (hfills : Scan.skipSpace src found.stop (shrink src lo hi).hi = (shrink src lo hi).hi) :
      ExpressionTrace r src lo hi found.ast
  | code {parts : List Ast}
      (hparts : code r src (shrink src lo hi).lo (shrink src lo hi).hi = .ok parts) :
      ExpressionTrace r src lo hi
        (Ast.placed (shrink src lo hi).lo (shrink src lo hi).hi (.fragment parts))

/-- An expression that is read has a trace. -/
theorem expressionTrace {lo hi : Nat} {a : Ast} (h : expression r src lo hi = .ok a) :
    ExpressionTrace r src lo hi a := by
  unfold expression at h
  dsimp only at h
  split at h
  case isTrue hblank =>
    obtain rfl := pure_eq_ok.mp h
    exact .blank hblank
  obtain ⟨found, hfound, h⟩ := bind_eq_ok.mp h
  cases found with
  | none =>
    simp only [bind_eq_ok, pure_eq_ok] at h
    obtain ⟨parts, hparts, rfl⟩ := h
    exact .code hparts
  | some found =>
    dsimp only at h
    split at h
    case isTrue hfills =>
      obtain rfl := pure_eq_ok.mp h
      exact .operand hfound hfills
    case isFalse =>
      simp only [bind_eq_ok, pure_eq_ok] at h
      obtain ⟨parts, hparts, rfl⟩ := h
      exact .code hparts

end Read

end JsxStyle
