import JsxStyle.Proofs.Chunks
import JsxStyle.Proofs.Descent
import JsxStyle.Proofs.Embedding
import JsxStyle.Proofs.Nesting

/-!
# Markup is read the same wherever it stands

The readers are run on two texts that have the same markup in them.  Whatever is read
between braces, and every error there, is the same but for places.  Outside of braces
that much need not hold, since a bracket that the first text leaves open may be closed in
the second; but an element that is read in the first has no such bracket, and is read in
the second as well.  `Follows` says both at once.

There is one lemma for each reader, about readers of nested things that answer alike, and
the induction is on how deep the readers look.

* `Moved`, `Follows`: when two results are the same but for places;
* `moved_readers`: the readers of the two texts;
* `element_relocated`: an element read in one text is read in the other.
-/

namespace JsxStyle

open Ascii

/-- The same tree with every place `d` bytes further on. -/
def Ast.shift (d : Nat) (a : Ast) : Ast :=
  a.fold fun s k => .node (s.map (Span.shift d)) k

/-- Moving a placed node moves its span and its children. -/
@[simp] theorem Ast.shift_placed (d lo hi : Nat) (k : Kind Ast) :
    (Ast.placed lo hi k).shift d = Ast.placed (lo + d) (hi + d) (k.map (Ast.shift d)) :=
  Ast.fold_node ..

/-- Two placed nodes are a shift apart as soon as their spans and what they hold are. -/
theorem Ast.placed_eq_shift {d lo hi lo' hi' : Nat} {k k' : Kind Ast} (hlo : lo' = lo + d)
    (hhi : hi' = hi + d) (hk : k' = k.map (Ast.shift d)) :
    Ast.placed lo' hi' k' = (Ast.placed lo hi k).shift d := by
  rw [Ast.shift_placed, hlo, hhi, hk]

namespace Read

/-- Two results that are the same but for places, which are `d` bytes further on in the second. -/
inductive Moved (d : Nat) {α β : Type} (same : α → β → Prop) : Result α → Result β → Prop
  | ok {a : α} {b : β} (h : same a b) : Moved d same (.ok a) (.ok b)
  | error (cause : Cause) (offset : Nat) :
      Moved d same (.error ⟨cause, offset⟩) (.error ⟨cause, offset + d⟩)

/-- Agreement after a move passes through sequencing. -/
theorem Moved.bind {d : Nat} {α β γ δ : Type} {same : α → β → Prop} {same' : γ → δ → Prop}
    {x : Result α} {y : Result β} {f : α → Result γ} {g : β → Result δ} (h : Moved d same x y)
    (hstep : ∀ a b, same a b → Moved d same' (f a) (g b)) : Moved d same' (x >>= f) (y >>= g) := by
  cases h with
  | ok h => exact hstep _ _ h
  | error cause offset => exact .error cause offset

/-- Agreement after a move passes through a function applied to both answers. -/
theorem Moved.map {d : Nat} {α β γ δ : Type} {same : α → β → Prop} {same' : γ → δ → Prop}
    {x : Result α} {y : Result β} {f : α → γ} {g : β → δ} (h : Moved d same x y)
    (hstep : ∀ a b, same a b → same' (f a) (g b)) : Moved d same' (f <$> x) (g <$> y) := by
  cases h with
  | ok h => exact .ok (hstep _ _ h)
  | error cause offset => exact .error cause offset

/-- The second result is the first but for places, in any case if `always`, and otherwise if
the first is one that is wanted. -/
def Follows (always : Prop) {α β : Type} (wanted : α → Prop) (d : Nat) (same : α → β → Prop)
    (x : Result α) (y : Result β) : Prop :=
  (always ∨ ∃ a, x = .ok a ∧ wanted a) → Moved d same x y

section Follows

variable {always : Prop} {d : Nat} {α β γ δ : Type} {wanted : α → Prop} {wanted' : γ → Prop}
  {same : α → β → Prop} {same' : γ → δ → Prop} {x : Result α} {y : Result β}

/-- An answer that always moves along does so when it is wanted. -/
theorem Moved.follows (h : Moved d same x y) : Follows always wanted d same x y :=
  fun _ => h

/-- Following under weaker conditions gives it under stronger ones. -/
theorem Follows.imp {always' : Prop} (h : Follows always wanted d same x y)
    (himp : always' → always) : Follows always' wanted d same x y :=
  fun hok => h (hok.imp_left himp)

/-- Where there is no first result, there is something to show only if `always`. -/
theorem Follows.of_error {e : ReadError} (h : always → Moved d same (.error e) y) :
    Follows always wanted d same (.error e) y := by
  rintro (halways | ⟨a, ha, -⟩)
  · exact h halways
  · exact absurd ha (by simp)

/-- A reader that found nothing has nothing to be followed in. -/
theorem Follows.of_none {y : Result (Option β)}
    (h : always → Moved d (Option.Rel same) (.ok none) y) :
    Follows always (·.isSome) d (Option.Rel same) (.ok none) y := by
  rintro (halways | ⟨a, ha, hwanted⟩)
  · exact h halways
  · obtain rfl := Except.ok.inj ha
    exact absurd hwanted (by simp)

/-- Following passes through sequencing where a wanted end asks for a wanted first part. -/
theorem Follows.bind {f : α → Result γ} {g : β → Result δ} (h : Follows always wanted d same x y)
    (hwanted : ∀ a c, f a = .ok c → wanted' c → wanted a)
    (hstep : ∀ a b, same a b → Follows always wanted' d same' (f a) (g b)) :
    Follows always wanted' d same' (x >>= f) (y >>= g) := by
  intro hok
  have hx : always ∨ ∃ a, x = .ok a ∧ wanted a := by
    refine hok.imp_right fun ⟨c, hc, hwanted'⟩ => ?_
    obtain ⟨a, ha, hf⟩ := bind_eq_ok.mp hc
    exact ⟨a, ha, hwanted a c hf hwanted'⟩
  cases h hx with
  | ok hab => exact hstep _ _ hab hok
  | error cause offset => exact .error cause offset

/-- An attempt that goes on only with something read. -/
theorem Follows.bind_some {x : Result (Option α)} {y : Result (Option β)}
    {f : Option α → Result γ} {g : Option β → Result δ}
    (h : Follows always (·.isSome) d (Option.Rel same) x y)
    (hnone : Follows always wanted' d same' (f none) (g none))
    (hunwanted : ∀ c, f none = .ok c → ¬ wanted' c)
    (hsome : ∀ a b, same a b → Follows always wanted' d same' (f (some a)) (g (some b))) :
    Follows always wanted' d same' (x >>= f) (y >>= g) := by
  refine h.bind (fun a c hc hwanted => ?_) fun a b hab => ?_
  · cases a with
    | none => exact absurd hwanted (hunwanted c hc)
    | some a => rfl
  · cases hab with
    | none => exact hnone
    | some hab => exact hsome _ _ hab

/-- An attempt that reads nothing if another has read nothing. -/
theorem Follows.bind_option {x : Result (Option α)} {y : Result (Option β)}
    {f : Option α → Result (Option γ)} {g : Option β → Result (Option δ)}
    (h : Follows always (·.isSome) d (Option.Rel same) x y)
    (hf : f none = .ok none) (hg : g none = .ok none)
    (hsome : ∀ a b, same a b →
      Follows always (·.isSome) d (Option.Rel same') (f (some a)) (g (some b))) :
    Follows always (·.isSome) d (Option.Rel same') (x >>= f) (y >>= g) := by
  refine h.bind_some ?_ (fun c hc => ?_) hsome
  · rw [hf, hg]
    exact Moved.follows (.ok .none)
  · obtain rfl := Except.ok.inj (hf.symm.trans hc)
    simp

end Follows

/-- A node that was read, and the same node `d` bytes further on. -/
structure Reading.Moved (d : Nat) {lo lo' : Nat} (a : Reading lo) (b : Reading lo') : Prop where
  ast : b.ast = a.ast.shift d
  stop : b.stop = a.stop + d

/-- Readers of which the second answer about a range `d` bytes further on as the first do, for
what is between braces, and for every element from `start` on that the first read. -/
structure Readers.Moved (src : Text) (start d : Nat) (r r' : Readers) : Prop where
  expression : ∀ {lo hi lo' hi' : Nat}, Scan.InBraces src start lo hi → lo' = lo + d →
    hi' = hi + d →
    Read.Moved d (fun a b => b = a.shift d) (r.expression lo hi) (r'.expression lo' hi')
  element : ∀ {lo hi lo' hi' : Nat}, start ≤ lo → hi ≤ src.length → lo' = lo + d → hi' = hi + d →
    Follows (Scan.InBraces src start lo hi) (·.isSome) d (Option.Rel (Reading.Moved d))
      (r.element lo hi) (r'.element lo' hi')

/-- What is left of an opening tag, and the same `d` bytes further on. -/
structure TagTail.Moved (d : Nat) {pos pos' : Nat} (a : TagTail pos) (b : TagTail pos') : Prop where
  attributes : b.attributes = a.attributes.map (Ast.shift d)
  selfClosing : b.selfClosing = a.selfClosing
  stop : b.stop = a.stop + d

/-- Tag tails that are a shift apart stay so with an attribute put before each. -/
theorem TagTail.Moved.cons {d pos pos' lo lo' : Nat} {t : TagTail pos} {t' : TagTail pos'}
    (h : t.Moved d t') {attr attr' : Ast} (hattr : attr' = attr.shift d) (hlo : lo ≤ pos)
    (hlo' : lo' ≤ pos') : (t.cons attr hlo).Moved d (t'.cons attr' hlo') :=
  ⟨by simp only [TagTail.cons, h.attributes, hattr, List.map_cons], h.selfClosing, h.stop⟩

/-- What stands behind an opening tag, and the same `d` bytes further on. -/
structure Content.Moved (d : Nat) {pos pos' : Nat} (a : Content pos) (b : Content pos') : Prop where
  children : b.children = a.children.map (Ast.shift d)
  closing : b.closing = a.closing
  stop : b.stop = a.stop + d

/-- Contents that are a shift apart stay so with a child put before each. -/
theorem Content.Moved.cons {d pos pos' lo lo' : Nat} {c : Content pos} {c' : Content pos'}
    (h : c.Moved d c') {child child' : Ast} (hchild : child' = child.shift d) (hlo : lo ≤ pos)
    (hlo' : lo' ≤ pos') : (c.cons child hlo).Moved d (c'.cons child' hlo') :=
  ⟨by simp only [Content.cons, h.children, hchild, List.map_cons], h.closing, h.stop⟩

section Parts

variable {src src' post : Text} {start d : Nat} (h : Embeds src src' post start d)
variable {r r' : Readers} (hr : r.Moved src start d r')

include hr in
/-- The expressions of the holes of a template move along with the text. -/
theorem moved_expressions {ranges : List Span}
    (hranges : ∀ s ∈ ranges, Scan.InBraces src start s.lo s.hi) :
    Moved d (fun as bs => bs = as.map (Ast.shift d)) (r.expressions ranges)
      (r'.expressions (ranges.map (Span.shift d))) := by
  induction ranges with
  | nil => exact .ok rfl
  | cons s rest ih =>
    obtain ⟨hin, hrest⟩ := List.forall_mem_cons.mp hranges
    have hmore := ih hrest
    unfold Readers.expressions at hmore ⊢
    rw [List.map_cons, List.mapM_cons, List.mapM_cons]
    refine (hr.expression hin rfl rfl).bind fun a b hab => hmore.bind fun as bs habs => .ok ?_
    rw [hab, habs, List.map_cons]

include hr in
/-- What stands between the commas of a range. -/
theorem moved_segments {lo hi : Nat} {ranges : List Span}
    (hsegments : Scan.segments src lo hi = some ranges) (hle : lo ≤ hi)
    (hin : Scan.InBraces src start lo hi) :
    Moved d (fun as bs => bs = as.map (Ast.shift d)) (r.expressions ranges)
      (r'.expressions (ranges.map (Span.shift d))) := by
  refine moved_expressions hr fun s hs => ?_
  obtain ⟨s', hs', hlo, -, hhi⟩ :=
    (Scan.inOrder_segmentsFrom hsegments (Nat.le_refl _) hle).mem hs
  obtain rfl := Option.some.inj hs'
  exact hin.mono hlo hhi

include h in
/-- A stretch of code that is not understood moves along with the text. -/
theorem shift_opaqueCode {lo hi : Nat} (hlo : start ≤ lo) (hhi : hi ≤ src.length) :
    opaqueCode src' (lo + d) (hi + d) = (opaqueCode src lo hi).map (Ast.shift d) := by
  unfold opaqueCode
  rw [h.slice hlo hhi]
  by_cases hlt : lo < hi
  · rw [if_pos hlt, if_pos (Nat.add_lt_add_right hlt d), List.map_singleton, Ast.shift_placed]
    rfl
  · rw [if_neg hlt, if_neg fun hlt' => hlt (Nat.lt_of_add_lt_add_right hlt')]
    rfl

include h hr in
/-- A tagged template moves along with the text, its holes being inside the braces. -/
theorem moved_taggedTemplate {tag tag' : Ast} {lo tick lo' tick' : Nat} (hlo : lo' = lo + d)
    (htick : tick' = tick + d) (htag : tag' = tag.shift d) (hstart : start ≤ tick)
    (hlen : tick < src.length) :
    Moved d (Reading.Moved d) (taggedTemplate r src tag lo tick)
      (taggedTemplate r' src' tag' lo' tick') := by
  subst hlo htick htag
  have hparts := h.templateParts hstart hlen
  cases hsome : Scan.templateParts src tick with
  | none =>
    rw [hsome, Option.map_none] at hparts
    rw [taggedTemplate_none _ _ _ hsome, taggedTemplate_none _ _ _ hparts]
    exact .error _ _
  | some parts =>
    rw [hsome, Option.map_some] at hparts
    rw [taggedTemplate_some _ _ _ hsome, taggedTemplate_some _ _ _ hparts]
    have hholes : ∀ s ∈ parts.holes, Scan.InBraces src start s.lo s.hi := by
      intro s hs
      obtain ⟨⟨opening, hlo, hbrace⟩, -⟩ := (Scan.seam_templateTail hsome).2.2 s hs
      have hclose := Scan.matching_hole hsome s hs
      have hbehind := ((Scan.templateTail_bounds hsome).2.2 s hs).1
      rw [hlo, Nat.add_sub_cancel] at hclose
      exact ⟨opening, s.hi, by omega, hbrace, hclose, by omega, Nat.le_refl _⟩
    refine (moved_expressions hr hholes).bind fun holes holes' heq => .ok ⟨?_, rfl⟩
    exact Ast.placed_eq_shift rfl rfl (by rw [heq]; rfl)

/-- One more name behind a tag that stands further on. -/
theorem shift_tagMember (d lo : Nat) (tag : Ast × Nat) (property : Text) :
    tagMember (lo + d) (tag.1.shift d, tag.2 + d) property =
      ((tagMember lo tag property).1.shift d, (tagMember lo tag property).2 + d) := by
  have hstop : tag.2 + d + 1 + property.length = tag.2 + 1 + property.length + d := by omega
  unfold tagMember
  dsimp only
  rw [hstop, Ast.shift_placed]
  rfl

/-- The node of a tag moves with its place. -/
theorem shift_tagNode (d lo : Nat) (tag : Text) :
    tagNode (lo + d) tag = (tagNode lo tag).shift d := by
  have hfold (properties : List Text) (tag : Ast × Nat) :
      properties.foldl (tagMember (lo + d)) (tag.1.shift d, tag.2 + d) =
        ((properties.foldl (tagMember lo) tag).1.shift d,
          (properties.foldl (tagMember lo) tag).2 + d) := by
    induction properties generalizing tag with
    | nil => rfl
    | cons property rest ih => rw [List.foldl_cons, List.foldl_cons, shift_tagMember, ih]
  unfold tagNode
  cases Text.pieces dot tag with
  | nil => rfl
  | cons first properties =>
    dsimp only
    rw [Nat.add_right_comm]
    exact congrArg Prod.fst (hfold properties
      (Ast.placed lo (lo + first.length) (.ident first), lo + first.length))

include h in
/-- An import declaration is read alike wherever the text stands. -/
theorem moved_importAt {lo hi lo' hi' : Nat} (hlo : lo' = lo + d) (hhi : hi' = hi + d)
    (hstart : start ≤ lo) (hlen : hi ≤ src.length) :
    Option.Rel (Reading.Moved d) (importAt src lo hi) (importAt src' lo' hi') := by
  subst hlo hhi
  have hslice : src'.slice (lo + d + 6) (hi + d) = src.slice (lo + 6) hi := by
    rw [Nat.add_right_comm, h.slice (by omega) hlen]
  unfold importAt
  dsimp only
  rw [hslice]
  cases hfind : (src.slice (lo + 6) hi).findIdx? fun b =>
      b.isQuote || b == openParen || b == semicolon with
  | none => exact .none
  | some i =>
    have hpos : lo + d + 6 + i = lo + 6 + i + d := by omega
    have hin : lo + 6 + i < src.length := by
      obtain ⟨hlt, -⟩ := List.findIdx?_eq_some_iff_getElem.mp hfind
      rw [Text.slice, List.length_take] at hlt
      omega
    cases hdrop : src.drop (lo + 6 + i) with
    | nil => exact absurd (List.drop_eq_nil_iff.mp hdrop) (by omega)
    | cons b rest =>
      have hdrop' : src'.drop (lo + d + 6 + i) = b :: (rest ++ post) := by
        rw [hpos, h.drop_cons (by omega) hdrop]
      simp only [Option.bind_eq_bind, Option.bind_some, hdrop, hdrop']
      split
      case isTrue hquote =>
        rw [h.seals.stringTail_append hquote]
        cases hn : Scan.stringTail b rest with
        | none => exact .none
        | some n =>
          have hseam : Seam src (lo + 6 + i + 1 + n) := by
            obtain ⟨m, rfl, hm⟩ := Scan.getElem?_stringTail hn
            apply Seam.succ_of_isAscii (b := b) _ (Byte.isAscii_of_isQuote hquote)
            rw [← (Scan.getElem?_of_drop_eq_cons hdrop).2, List.getElem?_drop] at hm
            exact hm
          have hstop : statementEnd src' (lo + d + 6 + i + 1 + n) (hi + d) =
              statementEnd src (lo + 6 + i + 1 + n) hi + d := by
            rw [← h.statementEnd (by omega) hseam.le hlen]
            congr 1
            omega
          have hclause : src'.slice (lo + d + 6) (lo + d + 6 + i) =
              src.slice (lo + 6) (lo + 6 + i) := by
            rw [hpos, Nat.add_right_comm lo d 6, h.slice (by omega) (Nat.le_of_lt hin)]
          have hend : Seam src (statementEnd src (lo + 6 + i + 1 + n) hi) := seam_statementEnd hseam
          have hraw := h.slice hstart hend.le
          have hsource : (rest ++ post).take (n - 1) = rest.take (n - 1) :=
            List.take_append_of_le_length (by have := Scan.stringTail_bounds hn; omega)
          refine .some ⟨Ast.placed_eq_shift rfl hstop ?_, hstop⟩
          simp only [hstop, hclause, hraw, hsource]
          rfl
      case isFalse => exact .none

include h hr in
/-- Code is cut in the same places. -/
theorem moved_codeFrom {lo hi flushed i lo' hi' flushed' i' : Nat} (hlo : lo' = lo + d)
    (hhi : hi' = hi + d) (hflushed : flushed' = flushed + d) (hpos : i' = i + d)
    (hin : Scan.InBraces src start i hi) (hstart : start ≤ flushed) (hle : flushed ≤ i) :
    Moved d (fun as bs => bs = as.map (Ast.shift d)) (codeFrom r src lo hi flushed i)
      (codeFrom r' src' lo' hi' flushed' i') := by
  subst hlo hhi
  have hlen := Nat.le_of_lt hin.hi_lt
  have hend {flushed i i' : Nat} (hstart : start ≤ flushed) (hout : hi ≤ i) (hout' : hi + d ≤ i') :
      Moved d (fun as bs => bs = as.map (Ast.shift d)) (codeFrom r src lo hi flushed i)
        (codeFrom r' src' (lo + d) (hi + d) (flushed + d) i') := by
    rw [codeFrom, if_neg (Nat.not_lt.mpr hout), codeFrom, if_neg (Nat.not_lt.mpr hout'),
      shift_opaqueCode h hstart hlen]
    exact .ok rfl
  induction hn : hi - i using Nat.strongRecOn generalizing flushed i flushed' i' with
  | ind n ih =>
    subst hflushed hpos
    have hbegin := hin.start_lt
    by_cases hlt : i < hi
    · rw [codeFrom.eq_def, codeFrom.eq_def r', if_pos hlt, if_pos (Nat.add_lt_add_right hlt d)]
      have hskip {j j' : Nat} (hpos : j' = j + d) (hadv : i < j) :
          Moved d (fun as bs => bs = as.map (Ast.shift d)) (codeFrom r src lo hi flushed j)
            (codeFrom r' src' (lo + d) (hi + d) (flushed + d) j') :=
        ih _ (by omega) rfl hpos (hin.mono (Nat.le_of_lt hadv) (Nat.le_refl _)) hstart
          (by omega) rfl
      -- What is found stands between the code before it and the pieces behind it.
      have hfound {mid at_ at_' : Nat} {found : Reading at_} {found' : Reading at_'}
          (hsame : Reading.Moved d found found') (hat : i ≤ at_) (hmid : mid ≤ hi) :
          Moved d (fun as bs => bs = as.map (Ast.shift d))
            (do
              let more ← codeFrom r src lo hi found.stop found.stop
              return opaqueCode src flushed mid ++ found.ast :: more)
            (do
              let more ← codeFrom r' src' (lo + d) (hi + d) found'.stop found'.stop
              return opaqueCode src' (flushed + d) (mid + d) ++ found'.ast :: more) := by
        have hadv := found.advances
        refine (ih _ (by omega) hsame.stop hsame.stop (hin.mono (by omega) (Nat.le_refl _))
          (by omega)
          (Nat.le_refl _) rfl).bind fun as bs habs => .ok ?_
        rw [shift_opaqueCode h hstart (by omega), hsame.ast, habs, List.map_append, List.map_cons]
      cases hdrop : src.drop i with
      | nil => exact absurd (List.drop_eq_nil_iff.mp hdrop) (by omega)
      | cons b rest =>
        rw [h.drop_cons (Nat.le_of_lt hbegin) hdrop]
        dsimp only
        rw [h.seals.lead_append]
        cases hlead : Scan.lead b rest with
        | string quote =>
          dsimp only
          rw [h.seals.stringTail_append (Scan.isQuote_of_lead hlead).2]
          exact hskip (by omega) (by omega)
        | template =>
          dsimp only
          rw [h.tagBefore hstart (by omega), h.seals.closeTail_template]
          cases htag : tagBefore src flushed i with
          | none =>
            dsimp only
            cases Scan.closeTail .template [] rest with
            | none => exact .error _ _
            | some k => exact hskip (by omega) (by omega)
          | some tag =>
            obtain ⟨hwithin, hend, -⟩ := tagBefore_spec htag hle (by omega)
            have htagLo : i + d - tag.length = i - tag.length + d := by omega
            dsimp only
            rw [htagLo]
            refine (moved_taggedTemplate h hr rfl rfl (shift_tagNode d _ tag) (by omega)
              (by omega)).bind fun found found' hsame => ?_
            exact hfound hsame (Nat.le_refl _) (by omega)
        | lineComment =>
          dsimp only
          rcases Scan.lineTail_append rest post with hline | ⟨hline, hbehind⟩
          · rw [hline]
            exact hskip (by omega) (by omega)
          · have hlength := congrArg List.length hdrop
            rw [List.length_drop, List.length_cons] at hlength
            exact hend hstart (by omega) (by omega)
        | blockComment =>
          dsimp only
          rw [h.seals.commentTail_behind hlead]
          cases Scan.commentTail (rest.drop 1) with
          | none =>
            dsimp only
            rw [shift_opaqueCode h hstart hlen]
            exact .ok rfl
          | some k => exact hskip (by omega) (by omega)
        | group _ | plain =>
          dsimp only
          rw [h.importStarts hbegin (by omega), h.markupMayStart hbegin (by omega)]
          split
          · have himport := moved_importAt h (rfl : i + d = i + d) (rfl : hi + d = hi + d)
              (Nat.le_of_lt hbegin) hlen
            generalize importAt src i hi = found,
              importAt src' (i + d) (hi + d) = found' at himport ⊢
            cases himport with
            | none => exact hskip (by omega) (by omega)
            | some hsame => exact hfound hsame (Nat.le_refl _) (Nat.le_of_lt hlt)
          · split
            · refine (hr.element (Nat.le_of_lt hbegin) hlen rfl rfl (.inl hin)).bind
                fun found found' hsame => ?_
              cases hsame with
              | none => exact hskip (by omega) (by omega)
              | some hsame => exact hfound hsame (Nat.le_refl _) (Nat.le_of_lt hlt)
            · exact hskip (by omega) (by omega)
    · exact hend hstart (by omega) (by omega)

include h hr in
/-- Code inside braces is cut into the same parts wherever the braces stand. -/
theorem moved_code {lo hi lo' hi' : Nat} (hlo : lo' = lo + d) (hhi : hi' = hi + d)
    (hin : Scan.InBraces src start lo hi) :
    Moved d (fun as bs => bs = as.map (Ast.shift d)) (code r src lo hi) (code r' src' lo' hi') :=
  moved_codeFrom h hr hlo hhi hlo hlo hin (Nat.le_of_lt hin.start_lt) (Nat.le_refl _)

include h hr in
/-- The expression of a container inside braces moves along with the text. -/
theorem moved_containerExpression {lo hi lo' hi' : Nat} (hlo : lo' = lo + d) (hhi : hi' = hi + d)
    (hin : Scan.InBraces src start lo hi) :
    Moved d (fun a b => b = a.map (Ast.shift d)) (containerExpression r src lo hi)
      (containerExpression r' src' lo' hi') := by
  subst hlo hhi
  unfold containerExpression
  rw [h.slice (Nat.le_of_lt hin.start_lt) (Nat.le_of_lt hin.hi_lt)]
  split
  · exact .ok rfl
  · exact (hr.expression hin rfl rfl).map fun a b hab => congrArg some hab

include h hr in
/-- An attribute found inside the braces is found, moved along, in the other text. -/
theorem moved_attributeAt {lo nameStop hi lo' nameStop' hi' : Nat} {hlt : lo < nameStop}
    {hlt' : lo' < nameStop'} (hlo : lo' = lo + d) (hname : nameStop' = nameStop + d)
    (hhi : hi' = hi + d) (hlen : hi ≤ src.length) (hlenName : nameStop ≤ src.length)
    (hstart : start ≤ lo) :
    Follows (Scan.InBraces src start lo hi) (·.isSome) d (Option.Rel (Reading.Moved d))
      (attributeAt r src lo nameStop hi hlt) (attributeAt r' src' lo' nameStop' hi' hlt') := by
  subst hlo hname hhi
  have hname := h.slice hstart hlenName
  have heq : Scan.skipSpace src' (nameStop + d) (hi + d) = Scan.skipSpace src nameStop hi + d :=
    h.skipSpace (by omega) hlen
  have hequals : src'.slice (Scan.skipSpace src' (nameStop + d) (hi + d)) (hi + d) =
      src.slice (Scan.skipSpace src nameStop hi) hi := by
    have := Scan.le_skipSpace src nameStop hi
    rw [heq, h.slice (by omega) hlen]
  have hvalueLo : Scan.skipSpace src' (Scan.skipSpace src' (nameStop + d) (hi + d) + 1) (hi + d) =
      Scan.skipSpace src (Scan.skipSpace src nameStop hi + 1) hi + d := by
    have := Scan.le_skipSpace src nameStop hi
    rw [heq, Nat.add_right_comm, h.skipSpace (by omega) hlen]
  have hfinish {value value' : Ast} {stop stop' : Nat} {hv : lo < stop} {hv' : lo + d < stop'}
      (hast : value' = value.shift d) (hstop : stop' = stop + d) :
      Follows (Scan.InBraces src start lo hi) (·.isSome) d (Option.Rel (Reading.Moved d))
        (.ok (some (⟨.placed lo stop (.attr (src.slice lo nameStop) (some value)), stop, hv⟩ :
          Reading lo)))
        (.ok (some
          (⟨.placed (lo + d) stop' (.attr (src'.slice (lo + d) (nameStop + d)) (some value')),
            stop', hv'⟩ : Reading (lo + d)))) := by
    refine Moved.follows (.ok (.some ⟨Ast.placed_eq_shift rfl hstop ?_, hstop⟩))
    rw [hname, hast]
    rfl
  have hnothing {lo lo' : Nat} : Follows (Scan.InBraces src start lo hi) (·.isSome) d
      (Option.Rel (Reading.Moved d)) (.ok (none : Option (Reading lo)))
        (.ok (none : Option (Reading lo'))) :=
    Moved.follows (.ok .none)
  have hbefore : lo < Scan.skipSpace src (Scan.skipSpace src nameStop hi + 1) hi := by
    have := Scan.le_skipSpace src nameStop hi
    have := Scan.le_skipSpace src (Scan.skipSpace src nameStop hi + 1) hi
    omega
  unfold attributeAt
  dsimp only
  rw [hequals]
  split
  · set valueLo := Scan.skipSpace src (Scan.skipSpace src nameStop hi + 1) hi
    set valueLo' := Scan.skipSpace src' (Scan.skipSpace src' (nameStop + d) (hi + d) + 1) (hi + d)
    have hslice : src'.slice valueLo' (hi + d) = src.slice valueLo hi := by
      rw [hvalueLo, h.slice (by omega) hlen]
    rw [hslice]
    cases hvalue : src.slice valueLo hi with
    | nil => exact hnothing
    | cons b rest =>
      have hbyte := Scan.getElem?_of_slice_eq_cons hvalue
      have hdrop := Scan.drop_eq_cons_of_getElem? hbyte
      dsimp only
      split
      · cases rest.findIdx? (· == b) with
        | none => exact hnothing
        | some n =>
          exact hfinish (Ast.placed_eq_shift hvalueLo (by omega) rfl) (by omega)
      · split
        case isTrue hbrace =>
          subst hbrace
          have hfirst : (src.slice valueLo hi)[0]? = some openBrace := by
            rw [hvalue]
            rfl
          have hbelow : valueLo < hi := (Scan.getElem?_of_getElem?_slice hfirst).2
          have hdrop' := h.drop_cons (by omega) hdrop
          rw [← hvalueLo] at hdrop'
          rw [(Scan.getElem?_of_drop_eq_cons hdrop').2]
          cases hclose : Scan.closeTail (.group closeBrace) [] (src.drop (valueLo + 1)) with
          | none =>
            refine .of_none fun hin => ?_
            rw [h.closeTail (hin.mono (by omega) (by omega)) hdrop rfl, hclose]
            exact .ok .none
          | some n =>
            rw [Scan.closeTail_group_append (b := openBrace) rfl hclose post]
            dsimp only
            by_cases hin : valueLo + n < hi
            · rw [if_pos hin, if_pos (by omega)]
              have hbraces : Scan.InBraces src start (valueLo + 1) (valueLo + n) :=
                .of_closeTail (by omega) hdrop hclose (Nat.lt_succ_self _)
              refine (moved_containerExpression h hr (by omega) (by omega) hbraces).follows.bind
                (fun _ _ _ _ => trivial) fun a a' haa => ?_
              exact hfinish (Ast.placed_eq_shift hvalueLo (by omega) (by rw [haa]; rfl)) (by omega)
            · rw [if_neg hin, if_neg (by omega)]
              exact hnothing
        case isFalse =>
          split
          · refine ((hr.element (by omega) hlen hvalueLo rfl).imp fun hin => ?_).bind_option rfl rfl
              fun value value' hsame => hfinish hsame.ast hsame.stop
            exact hin.mono (by omega) (Nat.le_refl _)
          · exact hnothing
  · exact Moved.follows (.ok (.some ⟨Ast.placed_eq_shift rfl rfl (by rw [hname]; rfl), rfl⟩))

include h hr in
/-- The rest of an opening tag inside the braces moves along, attribute by attribute. -/
theorem moved_tagTail {hi pos hi' pos' : Nat} (hhi : hi' = hi + d) (hpos : pos' = pos + d)
    (hlen : hi ≤ src.length) (hstart : start < pos) :
    Follows (Scan.InBraces src start pos hi) (·.isSome) d (Option.Rel (TagTail.Moved d))
      (tagTail r src hi pos) (tagTail r' src' hi' pos') := by
  subst hhi
  induction hn : hi - pos using Nat.strongRecOn generalizing pos pos' with
  | ind n ih =>
    subst hpos
    have hhere := h.skipSpace (Nat.le_of_lt hstart) hlen
    have hle := Scan.le_skipSpace src pos hi
    rw [tagTail.eq_def, tagTail.eq_def r']
    obtain ⟨here, hdef⟩ : ∃ here, here = Scan.skipSpace src pos hi := ⟨_, rfl⟩
    obtain ⟨here', hdef'⟩ : ∃ here', here' = Scan.skipSpace src' (pos + d) (hi + d) := ⟨_, rfl⟩
    simp only [← hdef, ← hdef'] at hhere hle ⊢
    have hmore {stop stop' : Nat} (hstop : stop' = stop + d) (hadv : here < stop)
        (hlt : here < hi) :
        Follows (Scan.InBraces src start pos hi) (·.isSome) d (Option.Rel (TagTail.Moved d))
          (tagTail r src hi stop) (tagTail r' src' (hi + d) stop') := by
      refine (ih _ (by omega) hstop (by omega) rfl).imp fun hin => ?_
      exact hin.mono (by omega) (Nat.le_refl _)
    by_cases hlt : here < hi
    · rw [if_pos hlt, if_pos (by omega)]
      cases hdrop : src.drop here with
      | nil => exact absurd (List.drop_eq_nil_iff.mp hdrop) (by omega)
      | cons b rest =>
        have hlength := congrArg List.length hdrop
        rw [List.length_drop, List.length_cons] at hlength
        have hnext : (rest ++ post).head? = some greater ↔ rest.head? = some greater :=
          h.seals.head?_append_eq_some_iff (by decide)
        have hdrop' : src'.drop here' = b :: (rest ++ post) := by
          rw [hhere, h.drop_cons (by omega) hdrop]
        rw [hdrop']
        simp only [hnext]
        split
        · exact Moved.follows (.ok (.some ⟨rfl, rfl, by dsimp only; omega⟩))
        · split
          · exact Moved.follows (.ok (.some ⟨rfl, rfl, by dsimp only; omega⟩))
          · split
            case isTrue hbrace =>
              subst hbrace
              cases hclose : Scan.closeTail (.group closeBrace) [] rest with
              | none =>
                refine .of_none fun hin => ?_
                rw [h.closeTail (hin.mono hle hlt) hdrop rfl, hclose]
                exact .ok .none
              | some n =>
                have hfit := (Scan.closeTail_bounds hclose).2
                have hopen : here + 1 ≤ Scan.skipSpace src (here + 1) (here + n) :=
                  Scan.le_skipSpace ..
                have hbegin : here' + 1 = here + 1 + d := by omega
                have hend : here' + n = here + n + d := by omega
                obtain ⟨hinner, hdots⟩ := h.behindSpace hbegin hend (by omega) (by omega)
                have hin : here' + n < hi + d ↔ here + n < hi := by omega
                rw [Scan.closeTail_group_append (b := openBrace) rfl hclose post]
                simp only [hinner, hdots, hin]
                split
                · have hbraces : Scan.InBraces src start
                      (Scan.skipSpace src (here + 1) (here + n) + 3) (here + n) :=
                    .of_closeTail (by omega) hdrop hclose (by omega)
                  refine (hr.expression hbraces (by omega) hend).follows.bind
                    (fun _ _ _ _ => trivial) fun argument argument' hargument => ?_
                  refine (hmore (by omega) (by omega) hlt).bind_option rfl rfl
                    fun tail tail' htail => Moved.follows (.ok (.some (htail.cons ?_ _ _)))
                  exact Ast.placed_eq_shift hhere (by omega) (by rw [hargument]; rfl)
                · exact Moved.follows (.ok .none)
            case isFalse =>
              split
              · have hrun := h.seals.takeWhile_append (p := Byte.isNameChar) rfl rest
                have hfit := (List.takeWhile_prefix Byte.isNameChar (l := rest)).length_le
                refine ((moved_attributeAt h hr (by omega) (by rw [hrun]; omega) rfl hlen (by omega)
                  (by omega)).imp fun hin => ?_).bind_option rfl rfl fun attr attr' hattr => ?_
                · exact hin.mono (by omega) (Nat.le_refl _)
                · have hadv := attr.advances
                  exact (hmore hattr.stop (by omega) hlt).bind_option rfl rfl
                    fun tail tail' htail => Moved.follows (.ok (.some (htail.cons hattr.ast _ _)))
              · exact Moved.follows (.ok .none)
    · rw [if_neg hlt, if_neg (by omega)]
      exact Moved.follows (.ok .none)

include h in
/-- A closing tag is read alike wherever the text stands. -/
theorem moved_closingTag {name : Text} {hi pos hi' pos' : Nat} (hhi : hi' = hi + d)
    (hpos : pos' = pos + d) (hlen : hi ≤ src.length) (hlenPos : pos + 2 ≤ src.length)
    (hstart : start ≤ pos) :
    Moved d (Content.Moved d) (closingTag src name hi pos) (closingTag src' name hi' pos') := by
  subst hhi hpos
  have hnameLo :
      Scan.skipSpace src' (pos + d + 2) (hi + d) = Scan.skipSpace src (pos + 2) hi + d := by
    rw [Nat.add_right_comm, h.skipSpace (by omega) hlen]
  have hle := Scan.le_skipSpace src (pos + 2) hi
  have hfit := Scan.skipSpace_le_length hi hlenPos
  have hnameStop := h.nameEnd (by omega) hfit
  have hle' := Scan.le_nameEnd src (Scan.skipSpace src (pos + 2) hi)
  have hfit' := Scan.nameEnd_le_length hfit
  have hafter : start ≤ Scan.skipSpace src (pos + 2) hi := by omega
  have hfound := h.slice hafter hfit'
  obtain ⟨hclose, hmark⟩ := h.behindSpace rfl rfl (Nat.le_trans (by omega) hle') hlen
  unfold closingTag
  simp only [hnameLo, hnameStop, hfound, hmark, hclose]
  split
  case isTrue hgreater =>
    obtain ⟨rest, hrest⟩ := List.head?_eq_some_iff.mp hgreater
    have hend := (List.getElem?_eq_some_iff.mp (Scan.getElem?_of_slice_eq_cons hrest)).1
    have hclosing := h.slice hstart (Nat.succ_le_of_lt hend)
    rw [Nat.succ_eq_add_one, Nat.add_right_comm] at hclosing
    split
    · exact .ok ⟨rfl, hclosing, Nat.add_right_comm ..⟩
    · exact .error _ _
  case isFalse => exact .error _ _

include h hr in
/-- The content of an element inside the braces moves along, child by child. -/
theorem moved_content {name : Text} {lo hi pos lo' hi' pos' : Nat} (hlo : lo' = lo + d)
    (hhi : hi' = hi + d) (hpos : pos' = pos + d) (hlen : hi ≤ src.length) (hstart : start < pos) :
    Follows (Scan.InBraces src start pos hi) (fun _ => True) d (Content.Moved d)
      (content r src name lo hi pos) (content r' src' name lo' hi' pos') := by
  subst hlo hhi
  induction hn : hi - pos using Nat.strongRecOn generalizing pos pos' with
  | ind n ih =>
    subst hpos
    rw [content.eq_def, content.eq_def r']
    have hmore {stop stop' : Nat} (hstop : stop' = stop + d) (hadv : pos < stop) (hlt : pos < hi) :
        Follows (Scan.InBraces src start pos hi) (fun _ => True) d (Content.Moved d)
          (content r src name lo hi stop) (content r' src' name (lo + d) (hi + d) stop') := by
      refine (ih _ (by omega) hstop (by omega) rfl).imp fun hin => ?_
      exact hin.mono (Nat.le_of_lt hadv) (Nat.le_refl _)
    by_cases hlt : pos < hi
    · rw [if_pos hlt, if_pos (Nat.add_lt_add_right hlt d)]
      cases hdrop : src.drop pos with
      | nil => exact absurd (List.drop_eq_nil_iff.mp hdrop) (by omega)
      | cons b rest =>
        have hlength := congrArg List.length hdrop
        rw [List.length_drop, List.length_cons] at hlength
        have hnext : (rest ++ post).head? = some slash ↔ rest.head? = some slash :=
          h.seals.head?_append_eq_some_iff (by decide)
        rw [h.drop_cons (by omega) hdrop]
        simp only [hnext]
        split
        case isTrue hclosing =>
          obtain ⟨rest, rfl⟩ := List.head?_eq_some_iff.mp hclosing.2
          rw [List.length_cons] at hlength
          exact (moved_closingTag h rfl rfl hlen (by omega) (Nat.le_of_lt hstart)).follows
        case isFalse =>
          split
          · refine (hr.element (Nat.le_of_lt hstart) hlen rfl rfl).bind_some ?_ (by simp)
              fun child child' hchild => ?_
            · exact Moved.follows (.error _ _)
            · exact (hmore hchild.stop child.advances hlt).bind (fun _ _ _ _ => trivial)
                fun more more' hmoved => Moved.follows (.ok (hmoved.cons hchild.ast _ _))
          · split
            case isTrue hbrace =>
              subst hbrace
              cases hclose : Scan.closeTail (.group closeBrace) [] rest with
              | none =>
                refine .of_error fun hin => ?_
                rw [h.closeTail (hin.mono (Nat.le_refl _) hlt) hdrop rfl, hclose]
                exact .error _ _
              | some n =>
                rw [Scan.closeTail_group_append (b := openBrace) rfl hclose post]
                have hin : pos + d + n < hi + d ↔ pos + n < hi := by omega
                simp only [hin]
                split
                · have hbraces : Scan.InBraces src start (pos + 1) (pos + n) :=
                    .of_closeTail (Nat.le_of_lt hstart) hdrop hclose (Nat.lt_succ_self _)
                  refine (moved_containerExpression h hr (by omega) (by omega) hbraces).follows.bind
                    (fun _ _ _ _ => trivial) fun expression expression' hexpression => ?_
                  refine (hmore (by omega) (by omega) hlt).bind (fun _ _ _ _ => trivial)
                    fun more more' hmoved => Moved.follows (.ok (hmoved.cons ?_ _ _))
                  exact Ast.placed_eq_shift rfl (by omega) (by rw [hexpression]; rfl)
                · exact Moved.follows (.error _ _)
            case isFalse =>
              have hbehind : src'.slice (pos + d + 1) (hi + d) = src.slice (pos + 1) hi := by
                rw [Nat.add_right_comm, h.slice (by omega) hlen]
              have hrun := (List.takeWhile_prefix (fun b => b != less && b != openBrace)
                (l := src.slice (pos + 1) hi)).length_le
              have hfit : (src.slice (pos + 1) hi).length ≤ hi - (pos + 1) := List.length_take_le ..
              have hstop : pos + d + 1 + ((src'.slice (pos + d + 1) (hi + d)).takeWhile
                  fun b => b != less && b != openBrace).length =
                  pos + 1 + ((src.slice (pos + 1) hi).takeWhile
                    fun b => b != less && b != openBrace).length + d := by
                rw [hbehind]
                omega
              have htext {stop : Nat} (hstop : stop ≤ hi) :
                  src'.slice (pos + d) (stop + d) = src.slice pos stop :=
                h.slice (by omega) (by omega)
              refine (hmore hstop (by omega) hlt).bind (fun _ _ _ _ => trivial)
                fun more more' hmoved =>
                Moved.follows (.ok (hmoved.cons (Ast.placed_eq_shift rfl hstop ?_) _ _))
              rw [hstop, htext (by omega)]
              rfl
    · rw [if_neg hlt, if_neg (by omega)]
      exact Moved.follows (.error _ _)

include h hr in
/-- An element inside the braces is read alike wherever the braces stand. -/
theorem moved_element {lo hi lo' hi' : Nat} (hlo : lo' = lo + d) (hhi : hi' = hi + d)
    (hlen : hi ≤ src.length) (hstart : start ≤ lo) :
    Follows (Scan.InBraces src start lo hi) (·.isSome) d (Option.Rel (Reading.Moved d))
      (element r src lo hi) (element r' src' lo' hi') := by
  subst hlo hhi
  unfold element
  dsimp only
  have hshort' : hi + d ≤ lo + d + 1 ↔ hi ≤ lo + 1 := by omega
  by_cases hshort : hi ≤ lo + 1
  · rw [if_pos hshort, if_pos (hshort'.mpr hshort)]
    exact Moved.follows (.ok .none)
  · rw [if_neg hshort, if_neg (mt hshort'.mp hshort)]
    have hnameStop : Scan.nameEnd src' (lo + d + 1) = Scan.nameEnd src (lo + 1) + d := by
      rw [Nat.add_right_comm, h.nameEnd (by omega) (by omega)]
    have hle := Scan.le_nameEnd src (lo + 1)
    have hfit : Scan.nameEnd src (lo + 1) ≤ src.length := Scan.nameEnd_le_length (by omega)
    have hname : src'.slice (lo + d + 1) (Scan.nameEnd src' (lo + d + 1)) =
        src.slice (lo + 1) (Scan.nameEnd src (lo + 1)) := by
      rw [hnameStop, Nat.add_right_comm, h.slice (by omega) hfit]
    have hnext : src'[lo + d + 1]? = src[lo + 1]? := by
      rw [Nat.add_right_comm, h.getElem? (by omega) (by omega), List.getElem?_eq_getElem (by omega)]
      rfl
    have hnameless : Scan.nameEnd src' (lo + d + 1) = lo + d + 1 ↔
        Scan.nameEnd src (lo + 1) = lo + 1 := by
      omega
    simp only [hname, hnext, hnameless]
    split
    · exact Moved.follows (.ok .none)
    · refine ((moved_tagTail h hr rfl hnameStop hlen (by omega)).imp fun hin =>
        ?_).bind_option rfl rfl
        fun tag tag' htag => ?_
      · exact hin.mono (by omega) (Nat.le_refl _)
      · have hadv := tag.advances
        have hopening : Ast.placed (lo + d) tag'.stop
            (.opening (src.slice (lo + 1) (Scan.nameEnd src (lo + 1))) tag'.attributes
              tag'.selfClosing) =
            (Ast.placed lo tag.stop (.opening (src.slice (lo + 1) (Scan.nameEnd src (lo + 1)))
              tag.attributes tag.selfClosing)).shift d := by
          refine Ast.placed_eq_shift rfl htag.stop ?_
          rw [htag.attributes, htag.selfClosing]
          rfl
        dsimp only
        rw [hopening, htag.selfClosing]
        split
        · exact Moved.follows (.ok (.some ⟨Ast.placed_eq_shift rfl htag.stop rfl, htag.stop⟩))
        · refine ((moved_content h hr rfl rfl htag.stop hlen (by omega)).imp fun hin => ?_).bind
            (fun _ _ _ _ => trivial)
            fun inner inner' hinner => Moved.follows (.ok (.some ⟨?_, hinner.stop⟩))
          · exact hin.mono (by omega) (Nat.le_refl _)
          · refine Ast.placed_eq_shift rfl hinner.stop ?_
            rw [hinner.children, hinner.closing]
            rfl

include h hr in
/-- A chain of calls and members after an operand moves along with the text. -/
theorem moved_chain {lo hi pos lo' hi' pos' : Nat} {operand operand' : Ast} {hlt : lo < pos}
    {hlt' : lo' < pos'} (hlo : lo' = lo + d) (hhi : hi' = hi + d) (hpos : pos' = pos + d)
    (hoperand : operand' = operand.shift d) (hin : Scan.InBraces src start pos hi) :
    Moved d (Option.Rel (Reading.Moved d)) (chain r src lo hi operand pos hlt)
      (chain r' src' lo' hi' operand' pos' hlt') := by
  subst hlo hhi
  induction hn : hi - pos using Nat.strongRecOn generalizing pos pos' operand operand' with
  | ind n ih =>
    subst hpos hoperand
    have hlen := hin.hi_lt
    have hstart := hin.start_lt
    have hmore {stop : Nat} (hadv : pos < stop) : Scan.InBraces src start stop hi :=
      hin.mono (Nat.le_of_lt hadv) (Nat.le_refl _)
    rw [chain.eq_def, chain.eq_def r']
    by_cases hlt : pos < hi
    · rw [if_pos hlt, if_pos (Nat.add_lt_add_right hlt d)]
      cases hdrop : src.drop pos with
      | nil => exact absurd (List.drop_eq_nil_iff.mp hdrop) (by omega)
      | cons b rest =>
        have hlength := congrArg List.length hdrop
        rw [List.length_drop, List.length_cons] at hlength
        have hnext : pos + d + 1 < hi + d ↔ pos + 1 < hi := by omega
        rw [h.drop_cons (Nat.le_of_lt hstart) hdrop]
        simp only [hnext, h.seals.any_head?_append (p := Byte.isIdentStart) rfl]
        split
        · have hident := h.seals.identLength_append rest
          have hfit := Scan.identLength_le_length rest
          refine ih _ (by omega) (by omega) (Ast.placed_eq_shift rfl (by omega) ?_)
            (hmore (by omega)) rfl
          rw [hident, List.take_append_of_le_length hfit]
          rfl
        · split
          case isTrue hparen =>
            subst hparen
            rw [h.closeTail (hin.mono (Nat.le_refl _) hlt) hdrop rfl]
            cases hclose : Scan.closeTail (.group closeParen) [] rest with
            | none => exact .ok .none
            | some k =>
              have hfit := (Scan.closeTail_bounds hclose).2
              have hopen := (Scan.closeTail_bounds hclose).1
              have hwithin : pos + d + k < hi + d ↔ pos + k < hi := by omega
              simp only [hwithin]
              split
              case isTrue hend =>
                have hinner : Scan.InBraces src start (pos + 1) (pos + k) :=
                  hin.mono (Nat.le_succ _) (Nat.le_of_lt hend)
                rw [h.segments (by omega) (by omega) hinner]
                cases hsegments : Scan.segments src (pos + 1) (pos + k) with
                | none => exact .ok .none
                | some ranges =>
                  refine (moved_segments hr hsegments (by omega) hinner).bind
                    fun arguments arguments' harguments => ?_
                  refine ih _ (by omega) (by omega) (Ast.placed_eq_shift rfl (by omega) ?_)
                    (hmore (by omega)) rfl
                  rw [harguments]
                  rfl
              case isFalse => exact .ok .none
          case isFalse =>
            split
            · rw [h.templateEnd (Nat.le_of_lt hstart) (by omega)]
              cases hend : Scan.templateEnd src pos with
              | none => exact .ok .none
              | some stop =>
                have hwithin : stop + d ≤ hi + d ↔ stop ≤ hi := by omega
                simp only [Option.map_some, hwithin]
                split
                · refine (moved_taggedTemplate h hr rfl rfl rfl (Nat.le_of_lt hstart)
                    (by omega)).bind fun tagged tagged' htagged => ?_
                  have hadv := tagged.advances
                  exact ih _ (by omega) htagged.stop htagged.ast (hmore hadv) rfl
                · exact .ok .none
            · exact .ok (.some ⟨rfl, rfl⟩)
    · rw [if_neg hlt, if_neg (by omega)]
      exact .ok (.some ⟨rfl, rfl⟩)

include h hr in
/-- The first operand of an expression inside braces moves along with the text. -/
theorem moved_operand {lo hi lo' hi' : Nat} (hlo : lo' = lo + d) (hhi : hi' = hi + d)
    (hin : Scan.InBraces src start lo hi) (hlt : lo < hi) :
    Moved d (Option.Rel (Reading.Moved d)) (operand r src lo hi) (operand r' src' lo' hi') := by
  subst hlo hhi
  have hlen := hin.hi_lt
  have hstart := hin.start_lt
  have hmore {stop : Nat} (hadv : lo < stop) : Scan.InBraces src start stop hi :=
    hin.mono (Nat.le_of_lt hadv) (Nat.le_refl _)
  unfold operand
  cases hdrop : src.drop lo with
  | nil => exact absurd (List.drop_eq_nil_iff.mp hdrop) (by omega)
  | cons b rest =>
    have hlength := congrArg List.length hdrop
    rw [List.length_drop, List.length_cons] at hlength
    rw [h.drop_cons (Nat.le_of_lt hstart) hdrop]
    dsimp only
    split
    case isTrue hquote =>
      rw [h.seals.stringTail_append hquote]
      cases hstring : Scan.stringTail b rest with
      | none => exact .ok .none
      | some n =>
        have hfit := (Scan.stringTail_bounds hstring).2
        have hwithin : lo + d + 1 + n ≤ hi + d ↔ lo + 1 + n ≤ hi := by omega
        simp only [hwithin]
        split
        · refine moved_chain h hr rfl rfl (by omega) (Ast.placed_eq_shift rfl (by omega) ?_)
            (hmore (by omega))
          rw [List.take_append_of_le_length (by omega)]
          rfl
        · exact .ok .none
    case isFalse =>
      split
      case isTrue hbracket =>
        subst hbracket
        rw [h.closeTail (hin.mono (Nat.le_refl _) hlt) hdrop rfl]
        cases hclose : Scan.closeTail (.group closeBracket) [] rest with
        | none => exact .ok .none
        | some k =>
          have hbounds := Scan.closeTail_bounds hclose
          have hwithin : lo + d + k < hi + d ↔ lo + k < hi := by omega
          simp only [hwithin]
          split
          case isTrue hend =>
            have hinner : Scan.InBraces src start (lo + 1) (lo + k) :=
              hin.mono (Nat.le_succ _) (Nat.le_of_lt hend)
            rw [h.segments (by omega) (by omega) hinner]
            cases hsegments : Scan.segments src (lo + 1) (lo + k) with
            | none => exact .ok .none
            | some ranges =>
              refine (moved_segments hr hsegments (by omega) hinner).bind
                fun elements elements' helements => ?_
              refine moved_chain h hr rfl rfl (by omega) (Ast.placed_eq_shift rfl (by omega) ?_)
                (hmore (by omega))
              rw [helements]
              rfl
          case isFalse => exact .ok .none
      case isFalse =>
        split
        · exact hr.element (Nat.le_of_lt hstart) (Nat.le_of_lt hlen) rfl rfl (.inl hin)
        · split
          · have hrun := h.seals.takeWhile_append (p := Byte.isIdentChar) rfl rest
            refine moved_chain h hr rfl rfl (by rw [hrun]; omega)
              (Ast.placed_eq_shift rfl (by rw [hrun]; omega) ?_) (hmore (by omega))
            rw [hrun]
            rfl
          · exact .ok .none

include h hr in
/-- An expression inside braces is read alike wherever the braces stand. -/
theorem moved_expression {lo hi lo' hi' : Nat} (hlo : lo' = lo + d) (hhi : hi' = hi + d)
    (hin : Scan.InBraces src start lo hi) :
    Moved d (fun a b => b = a.shift d) (expression r src lo hi) (expression r' src' lo' hi') := by
  have hlen := Nat.le_of_lt hin.hi_lt
  have hstart := hin.start_lt
  obtain ⟨hspace, hslice⟩ := h.behindSpace hlo hhi (Nat.le_of_lt hstart) hlen
  have hlo' : (shrink src' lo' hi').lo = (shrink src lo hi).lo + d := hspace
  have hhi' : (shrink src' lo' hi').hi = (shrink src lo hi).hi + d := by
    simp only [shrink, hspace, hslice, Nat.add_right_comm]
  have hbegin : lo ≤ (shrink src lo hi).lo := Scan.le_skipSpace ..
  have hwithin : (shrink src lo hi).lo ≠ (shrink src lo hi).hi →
      (shrink src lo hi).lo < (shrink src lo hi).hi ∧ (shrink src lo hi).hi ≤ hi := by
    have hrun := (List.dropWhile_suffix Byte.isSpace
      (l := (src.slice (Scan.skipSpace src lo hi) hi).reverse)).length_le
    have hfit : (src.slice (Scan.skipSpace src lo hi) hi).length ≤ hi - Scan.skipSpace src lo hi :=
      List.length_take_le ..
    rw [List.length_reverse] at hrun
    simp only [shrink]
    omega
  unfold expression
  dsimp only
  generalize shrink src lo hi = range, shrink src' lo' hi' = range' at *
  have hempty' : range'.lo = range'.hi ↔ range.lo = range.hi := by omega
  by_cases hempty : range.lo = range.hi
  · rw [if_pos hempty, if_pos (hempty'.mpr hempty)]
    exact .ok (Ast.placed_eq_shift hlo hhi rfl)
  · obtain ⟨hlt, hfit⟩ := hwithin hempty
    have hinner : Scan.InBraces src start range.lo range.hi := hin.mono hbegin hfit
    rw [if_neg hempty, if_neg (mt hempty'.mp hempty)]
    have hparts : Moved d (fun a b => b = a.shift d)
        (do
          let parts ← code r src range.lo range.hi
          return Ast.placed range.lo range.hi (.fragment parts))
        (do
          let parts ← code r' src' range'.lo range'.hi
          return Ast.placed range'.lo range'.hi (.fragment parts)) := by
      refine (moved_code h hr hlo' hhi' hinner).bind fun parts parts' heq => .ok ?_
      exact Ast.placed_eq_shift hlo' hhi' (by rw [heq]; rfl)
    refine (moved_operand h hr hlo' hhi' hinner hlt).bind
      fun found found' hfound => ?_
    cases hfound with
    | none => exact hparts
    | @some found found' hfound =>
      have hadv := found.advances
      have hrest : Scan.skipSpace src' found'.stop range'.hi =
          Scan.skipSpace src found.stop range.hi + d := by
        rw [hfound.stop, hhi', h.skipSpace (by omega) (by omega)]
      have hfills : Scan.skipSpace src' found'.stop range'.hi = range'.hi ↔
          Scan.skipSpace src found.stop range.hi = range.hi := by
        omega
      simp only [hfills]
      split
      · exact .ok hfound.ast
      · exact hparts

/-- The readers of the two texts answer alike, however deep they look. -/
theorem moved_readers (h : Embeds src src' post start d) (depth : Nat) :
    Readers.Moved src start d (readers src depth) (readers src' depth) := by
  induction depth with
  | zero =>
    constructor
    · rintro lo hi lo' hi' - rfl -
      exact .error .tooDeep lo
    · rintro lo hi lo' hi' - - rfl -
      exact Moved.follows (.error .tooDeep lo)
  | succ depth ih =>
    have hbelow : Readers.Moved src start d
        ⟨(readers src depth).expression, element (readers src depth) src⟩
        ⟨(readers src' depth).expression, element (readers src' depth) src'⟩ :=
      ⟨ih.expression, fun hstart hlen hlo hhi => moved_element h ih hlo hhi hlen hstart⟩
    rw [readers, readers]
    exact ⟨fun hin hlo hhi => moved_expression h hbelow hlo hhi hin, hbelow.element⟩

end Parts

/-- **Markup is read the same wherever it stands.**  An element that is read in one text is
read in the other, with every place further on by as much. -/
theorem element_relocated {src src' post : Text} {start d : Nat} (h : Embeds src src' post start d)
    {found : Reading start} {hi : Nat} (hlen : hi ≤ src.length)
    (hread : (readers src (src.length + 1)).element start hi = .ok (some found)) :
    ∃ found' : Reading (start + d),
      (readers src' (src'.length + 1)).element (start + d) (hi + d) = .ok (some found') ∧
        found'.ast = found.ast.shift d ∧ found'.stop = found.stop + d := by
  have hdeep : readers src (src.length + 1) = readers src (src.length + src'.length + 1) :=
    readers_eq (by omega) (by omega)
  have hdeep' : readers src' (src'.length + 1) = readers src' (src.length + src'.length + 1) :=
    readers_eq (by omega) (by omega)
  rw [hdeep] at hread
  rw [hdeep']
  have hmoved := (moved_readers h (src.length + src'.length + 1)).element (Nat.le_refl start) hlen
    rfl rfl (.inr ⟨_, hread, rfl⟩)
  rw [hread] at hmoved
  generalize (readers src' (src.length + src'.length + 1)).element (start + d) (hi + d) = answer
    at hmoved ⊢
  obtain ⟨⟨hast, hstop⟩⟩ := hmoved
  exact ⟨_, rfl, hast, hstop⟩

end Read

end JsxStyle
