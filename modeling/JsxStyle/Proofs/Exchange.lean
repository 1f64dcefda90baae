import JsxStyle.Proofs.Alike
import JsxStyle.Proofs.Replaced
import JsxStyle.Proofs.Silent

/-!
# References in any order

A template that makes way for a call holds its tag, literals and nothing else.
So no such template stands in another, and none stands above a reference but its
own: where a reference stands, what is above it and whether its template is known
in advance is the same before and after another reference is restyled.  What is
left of a module is therefore told by which templates have made way, and not by
the order in which they did, but for the identifiers of the calls.

* `Refilled`: a store in which some templates have made way for calls;
* `Tree.MakesWay`, `restyleReference_cases`: when a reference is restyled, and what follows;
* `Refilled.restyleReference`: one more reference is restyled;
* `Refilled.printWithin_eq`: two such stores are printed the same;
* `references_in_any_order`: any order of the references gives the same output
  and the same failures.
-/

namespace JsxStyle

/-- The forms of the nodes that a template looks at, in its tag and in its holes. -/
def Form.Telling : Form → Prop
  | .ident | .str | .fragment | .code => True
  | _ => False

namespace Kind

/-- Where a list is renamed by `f`, a new name for one entry is another renaming. -/
theorem replace_map {α : Type} [DecidableEq α] {f : α → α} {old : α} (new : α) {l : List α}
    (hl : l.Nodup) (hold : f old = old) (hf : ∀ c, f c = old → c = old) :
    (l.map f).replace old new = l.map (Function.update f old new) := by
  induction l with
  | nil => rfl
  | cons c rest ih =>
    obtain ⟨hc, hrest⟩ := List.nodup_cons.mp hl
    rw [List.map_cons, List.map_cons, replace_cons_eq_ite]
    by_cases hco : c = old
    · subst hco
      rw [if_pos hold, Function.update_self]
      refine congrArg (new :: ·) (List.map_congr_left fun d hd => ?_)
      rw [Function.update_of_ne]
      rintro rfl
      exact hc hd
    · rw [if_neg fun h => hco (hf c h), Function.update_of_ne hco, ih hrest]

/-- A renamed child is replaced by giving it another name. -/
theorem replaceChild_map {α : Type} [DecidableEq α] {f : α → α} {old : α} (new : α) {k : Kind α}
    (hk : k.children.Nodup) (hold : f old = old) (hf : ∀ c, f c = old → c = old) :
    (k.map f).replaceChild old new = k.map (Function.update f old new) := by
  have hlist {l : List α} (hl : l.Nodup) := replace_map new hl hold hf
  have hone (c : α) : (if f c = old then new else f c) = Function.update f old new c := by
    by_cases hc : c = old
    · rw [hc, if_pos hold, Function.update_self]
    · rw [if_neg fun h => hc (hf c h), Function.update_of_ne hc]
  have hoption (c : Option α) : (if c.map f = some old then some new else c.map f) =
      c.map (Function.update f old new) := by
    cases c with
    | none => rfl
    | some c =>
      rw [Option.map_some, Option.map_some, ← hone c]
      simp only [Option.some.injEq]
      split <;> rfl
  have hhead {head : α} {rest : List α} (hnodup : (head :: rest).Nodup) (h : f head = old) :
      rest.map f = rest.map (Function.update f old new) := by
    obtain rfl := hf head h
    refine List.map_congr_left fun c hc => ?_
    rw [Function.update_of_ne]
    rintro rfl
    exact (List.nodup_cons.mp hnodup).1 hc
  cases k with
  | program body => exact congrArg _ (hlist hk)
  | opening name attributes selfClosing => exact congrArg (opening name · selfClosing) (hlist hk)
  | attr name value => exact congrArg _ (hoption value)
  | spread argument => exact congrArg _ (hone argument)
  | container expression => exact congrArg _ (hoption expression)
  | array elements => exact congrArg _ (hlist hk)
  | member object property => exact congrArg (member · property) (hone object)
  | fragment parts => exact congrArg _ (hlist hk)
  | element head children closing =>
    simp only [map, replaceChild, ← hone head]
    split
    · rw [hhead hk ‹_›]
    · rw [hlist (List.nodup_cons.mp hk).2]
  | call callee arguments =>
    simp only [map, replaceChild, ← hone callee]
    split
    · rw [hhead hk ‹_›]
    · rw [hlist (List.nodup_cons.mp hk).2]
  | template tag chunks holes =>
    simp only [map, replaceChild, ← hone tag]
    split
    · rw [hhead hk ‹_›]
    · rw [hlist (List.nodup_cons.mp hk).2]
  | _ => rfl

end Kind

namespace Tree

section Images

variable {t₀ t : Tree} {f : NodeId → NodeId} {n : NodeId}

/-- A template learns as much from the node `f n` of `t` as from the node `n` of `t₀`. -/
def TellsAs (f : NodeId → NodeId) (t₀ t : Tree) (n : NodeId) : Prop :=
  t.kind (f n) = (t₀.kind n).map f ∨ ¬ (t₀.form n).Telling ∧ ¬ (t.form (f n)).Telling

/-- A node that a template does not look at has no literal text. -/
theorem literalText_of_not_telling (h : ¬ (t.form n).Telling) : t.literalText n = none := by
  unfold literalText
  unfold form at h
  cases hk : t.kind n <;> simp_all [Kind.form, Form.Telling]

/-- A hole tells a template the same literal text if it and what is below it do. -/
theorem literalText_eq_of_tellsAs (hn : TellsAs f t₀ t n)
    (hbelow : ∀ c ∈ t₀.children n, TellsAs f t₀ t c) : t.literalText (f n) = t₀.literalText n := by
  rcases hn with hkind | ⟨h₀, h⟩
  · unfold literalText
    unfold children at hbelow
    rw [hkind]
    cases hk : t₀.kind n with
    | fragment parts =>
      rw [hk] at hbelow
      rcases parts with _ | ⟨only, _ | ⟨next, rest⟩⟩
      · rfl
      · rcases hbelow only List.mem_cons_self with honly | ⟨h₀, h⟩
        · simp only [Kind.map, List.map_cons, List.map_nil, honly]
          cases t₀.kind only <;> rfl
        · unfold form at h₀ h
          simp only [Kind.map, List.map_cons, List.map_nil]
          cases hk₀ : t₀.kind only <;> cases hk' : t.kind (f only) <;>
            simp_all [Kind.form, Form.Telling]
      · rfl
    | _ => rfl
  · rw [literalText_of_not_telling h₀, literalText_of_not_telling h]

/-- A template stands for the same classes where what is below it tells the same. -/
theorem staticClasses_eq_of_tellsAs {t' : NodeId} (hkind : t.kind t' = (t₀.kind n).map f)
    (hbelow : ∀ c, t₀.Below c n → TellsAs f t₀ t c) (ht₀ : t₀.Linked) (builder : Option Text) :
    t.staticClasses t' builder = t₀.staticClasses n builder := by
  unfold staticClasses
  rw [hkind]
  cases hk : t₀.kind n with
  | template tag chunks holes =>
    have hchild {c : NodeId} (hc : c ∈ tag :: holes) : t₀.parent c = some n :=
      ht₀.parent_of_kind hk hc
    have hfold : t.foldChunks chunks (holes.map f) = t₀.foldChunks chunks holes := by
      refine foldChunks_map chunks fun hole hhole => ?_
      have hparent := hchild (List.mem_cons_of_mem _ hhole)
      exact literalText_eq_of_tellsAs (hbelow hole (.single hparent)) fun c hc =>
        hbelow c (.head (ht₀.mem_children.mp hc) (.single hparent))
    dsimp only [Kind.map]
    rw [hfold]
    rcases hbelow tag (.single (hchild List.mem_cons_self)) with htag | ⟨h₀, h⟩
    · rw [htag]
      cases t₀.kind tag <;> rfl
    · unfold form at h₀ h
      cases hk₀ : t₀.kind tag <;> cases hk' : t.kind (f tag) <;> simp_all [Kind.form, Form.Telling]
  | _ => rfl

end Images

/-- The template that a reference makes a call of: it may stand where it stands and is
known in advance. -/
def MakesWay (t : Tree) (scope : Scope) (reference template : NodeId) : Prop :=
  t.isAttached reference = true ∧ t.enclosing reference .template = some template ∧
    Stylist.permits scope template t = true ∧ (t.staticClasses template scope.builder).isSome

/-- The failure that a reference meets, if it is met at all. -/
def refusal (t : Tree) (scope : Scope) (reference : NodeId) : Option StyleError :=
  if t.isAttached reference then t.restriction scope.allowAnywhere reference else none

/-- The store `t` is `t₀` with calls in place of the templates that are `gone`; the node `n`
of `t₀`, or what stands in its place, is `f n`. -/
structure Refilled (callee : Text) (scope : Scope) (gone : NodeId → Prop) (t₀ t : Tree)
    (f : NodeId → NodeId) : Prop where
  moves : Moves t₀ t
  permitted : ∀ n, gone n → Stylist.permits scope n t₀ = true
  known : ∀ n, gone n → (t₀.staticClasses n scope.builder).isSome
  kind : ∀ n < t₀.size, t.kind n = (t₀.kind n).map f
  span : ∀ n < t₀.size, t.span n = t₀.span n
  stays : ∀ n < t₀.size, ¬ gone n → t.parent n = t₀.parent n
  cut : ∀ n, gone n → t.parent n = none
  /-- Whatever holds one of the templates is touched. -/
  dirty : ∀ n < t₀.size, t.dirty n = true ↔ t₀.dirty n = true ∨ ∃ m, gone m ∧ t₀.Below m n
  fixed : ∀ n, ¬ gone n → f n = n
  behind : ∀ n, gone n → t₀.size ≤ f n
  place : ∀ n, gone n → t.span (f n) = t₀.span n
  call : ∀ n classes, gone n → t₀.staticClasses n scope.builder = some classes →
    t.IsCall callee classes (f n)

theorem IsCall.form_eq {t : Tree} {callee classes : Text} {n : NodeId}
    (h : t.IsCall callee classes n) : t.form n = .call := by
  obtain ⟨name, argument, hkind, -⟩ := h
  exact congrArg Kind.form hkind

theorem Refilled.refl (callee : Text) (scope : Scope) (t : Tree) :
    Refilled callee scope (fun _ => False) t t id where
  moves := .refl
  permitted _ h := h.elim
  known _ h := h.elim
  kind n _ := (Kind.map_id (t.kind n)).symm
  span _ _ := rfl
  stays _ _ _ := rfl
  cut _ h := h.elim
  dirty n _ := by simp
  fixed _ _ := rfl
  behind _ h := h.elim
  place _ h := h.elim
  call _ _ h := h.elim

/-- A template stands where it may as long as the way up from it is the same. -/
theorem SameWay.permits_eq {t t' : Tree} {n : NodeId} (h : SameWay t t' n) (ht : t.Sound)
    (hmoves : Moves t t') (scope : Scope) :
    Stylist.permits scope n t' = Stylist.permits scope n t := by
  unfold Stylist.permits
  rw [h.enclosing_eq ht hmoves]
  cases henclosing : t.enclosing n .attr with
  | none => rfl
  | some attr =>
    rw [Option.bind_some, Option.bind_some,
      hmoves.attributeName_eq ht (ht.linked.form_of_enclosing henclosing).2]

/-- What becomes of a reference is the same as long as the way up from it is, and its template
stands for the same classes. -/
theorem SameWay.makesWay_iff {t t' : Tree} {reference template : NodeId}
    (h : SameWay t t' reference) (ht : t.Sound) (hmoves : Moves t t') (scope : Scope)
    (hstatic : t.enclosing reference .template = some template →
      t'.staticClasses template scope.builder = t.staticClasses template scope.builder) :
    t'.MakesWay scope reference template ↔ t.MakesWay scope reference template := by
  unfold MakesWay
  rw [h.isAttached_eq ht hmoves, h.enclosing_eq ht hmoves]
  refine and_congr_right fun _ => and_congr_right fun henclosing => ?_
  have hwithin : t.Within reference template :=
    (ht.linked.mem_ancestors_iff.mp (List.mem_of_find?_eq_some henclosing)).to_reflTransGen
  rw [(h.above hwithin).permits_eq ht hmoves, hstatic henclosing]

/-- A reference with the same way to the root is refused alike. -/
theorem SameWay.refusal_eq {t t' : Tree} {reference : NodeId} (h : SameWay t t' reference)
    (ht : t.Sound) (hmoves : Moves t t') (hspan : ∀ m < t.size, t'.span m = t.span m)
    (scope : Scope) :
    t'.refusal scope reference = t.refusal scope reference := by
  rw [refusal, h.isAttached_eq ht hmoves, h.restriction_eq ht hmoves hspan, refusal]

end Tree

namespace Stylist

open JsxStyle.Tree

/-- A reference is refused or of no concern, or its template makes way. -/
theorem restyleReference_cases (s : Stylist) (scope : Scope) (reference : NodeId) (t : Tree) :
    (∀ template, ¬ t.MakesWay scope reference template) ∧
        s.restyleReference scope reference t = ⟨t, t.refusal scope reference⟩ ∨
      ∃ template classes, t.MakesWay scope reference template ∧
        t.staticClasses template scope.builder = some classes ∧
        t.refusal scope reference = none ∧ s.restyleReference scope reference t =
          match s.annotateAround reference classes t with
          | ⟨t, some e⟩ => ⟨t, some e⟩
          | ⟨t, none⟩ => s.replaceTemplate template classes t := by
  unfold restyleReference refusal restriction MakesWay
  cases hattached : t.isAttached reference with
  | false => exact .inl ⟨by simp, rfl⟩
  | true =>
    rw [if_pos rfl, if_pos rfl]
    cases henclosing : t.enclosing reference .template with
    | none => exact .inl ⟨by simp, rfl⟩
    | some template =>
      dsimp only
      rw [Option.bind_some]
      by_cases hpermits : permits scope template t = true
      · rw [if_pos hpermits, if_pos ((permits_iff ..).mp hpermits)]
        cases hstatic : t.staticClasses template scope.builder with
        | none =>
          refine .inl ⟨fun other ⟨_, heq, _, hsome⟩ => ?_, rfl⟩
          rw [← Option.some.inj heq, hstatic] at hsome
          exact absurd hsome (by simp)
        | some classes =>
          exact .inr ⟨template, classes, ⟨rfl, rfl, hpermits, by rw [hstatic]; rfl⟩,
            hstatic, rfl, rfl⟩
      · rw [if_neg hpermits, if_neg fun h => hpermits ((permits_iff ..).mpr h)]
        refine .inl ⟨fun other ⟨_, heq, hp, _⟩ => hpermits ?_, rfl⟩
        rwa [Option.some.inj heq]

end Stylist

namespace Tree

namespace Refilled

variable {callee : Text} {scope : Scope} {gone : NodeId → Prop} {t₀ t : Tree}
  {f : NodeId → NodeId} {n m template : NodeId}

section Gone

variable (h : Refilled callee scope gone t₀ t f) (ht₀ : t₀.Ready)
include h ht₀

/-- What is gone was a template. -/
theorem form_eq_template (hn : gone n) : t₀.form n = .template := by
  obtain ⟨classes, hclasses⟩ := Option.isSome_iff_exists.mp (h.known n hn)
  exact (within_static ht₀.sound.linked (ht₀.paired n) hclasses).1

theorem lt_size (hn : gone n) : n < t₀.size :=
  lt_size_of_form (by rw [h.form_eq_template ht₀ hn]; decide)

/-- No template stands in a template that has made way. -/
theorem eq_of_template (hm : gone m) (hwithin : t₀.Within n m) (hn : t₀.form n = .template) :
    n = m := by
  obtain ⟨classes, hclasses⟩ := Option.isSome_iff_exists.mp (h.known m hm)
  obtain ⟨-, tag, htag, honly⟩ := within_static ht₀.sound.linked (ht₀.paired m) hclasses
  rcases honly n hwithin with heq | rfl | hinert
  · exact heq
  · exact absurd (htag.symm.trans hn) (by decide)
  · rw [hn] at hinert
    exact hinert.elim

/-- The way from a node to the template around it is as it was, if that has made way. -/
theorem within_of_below (hm : gone m) (hbelow : t₀.Below n m) : t.Within n m := by
  have hstay {c p : NodeId} (hp : t₀.parent c = some p) (hc : t₀.Below c m) :
      t.parent c = some p := by
    rw [h.stays c (lt_size_of_parent hp) fun hgone => ?_, hp]
    obtain rfl := h.eq_of_template ht₀ hm hc.to_reflTransGen (h.form_eq_template ht₀ hgone)
    exact ht₀.sound.linked.not_below_self _ hc
  induction hbelow using Relation.TransGen.head_induction_on with
  | single hup => exact .single (hstay hup (.single hup))
  | head hup hbelow ih => exact .head (hstay hup (.head hup hbelow)) ih

/-- The template around a node is the one that has made way, if that is above the node. -/
theorem enclosing_of_below (hm : gone m) (hbelow : t₀.Below n m) :
    t₀.enclosing n .template = some m := by
  have ht := ht₀.sound.linked
  induction hbelow using Relation.TransGen.head_induction_on with
  | single hup => rw [ht.enclosing_eq hup, if_pos (h.form_eq_template ht₀ hm)]
  | @head c p hup hbelow ih =>
    rw [ht.enclosing_eq hup, if_neg fun hp => ?_, ih]
    obtain rfl := h.eq_of_template ht₀ hm hbelow.to_reflTransGen hp
    exact ht.not_below_self _ hbelow

/-- What stood below a template that has made way is not part of the module any more. -/
theorem not_isAttached (hm : gone m) (hbelow : t₀.Below n m) : t.isAttached n = false := by
  rw [Bool.eq_false_iff]
  intro hattached
  have hroot : m ≠ root := by
    rintro rfl
    exact absurd (ht₀.root.symm.trans (h.form_eq_template ht₀ hm)) (by decide)
  obtain ⟨-, above, habove⟩ := exists_above (h.moves.sound ht₀.sound).linked hattached
    (h.within_of_below ht₀ hm hbelow) hroot
  exact absurd ((h.cut m hm).symm.trans habove) (by simp)

/-- A node outside of what is gone has the same way to the root. -/
theorem sameWay (hn : n < t₀.size) (hout : ∀ m, gone m → ¬ t₀.Within n m) : SameWay t₀ t n :=
  fun m hm => h.stays m (hm.lt_size ht₀.sound.linked hn) fun hgone => hout m hgone hm

/-- Every node there was tells a template the same. -/
theorem tellsAs (hn : n < t₀.size) : TellsAs f t₀ t n := by
  by_cases hgone : gone n
  · obtain ⟨classes, hclasses⟩ := Option.isSome_iff_exists.mp (h.known n hgone)
    refine .inr ⟨?_, ?_⟩
    · rw [h.form_eq_template ht₀ hgone]
      exact id
    · rw [(h.call n classes hgone hclasses).form_eq]
      exact id
  · exact .inl (by rw [h.fixed n hgone, h.kind n hn])

/-- A template stands for the same classes, whichever others have made way. -/
theorem staticClasses_eq (hn : n < t₀.size) (builder : Option Text) :
    t.staticClasses n builder = t₀.staticClasses n builder := by
  refine staticClasses_eq_of_tellsAs (h.kind n hn) (fun c hc => ?_) ht₀.sound.linked builder
  obtain ⟨p, hp, -⟩ := Relation.TransGen.head'_iff.mp hc
  exact h.tellsAs ht₀ (lt_size_of_parent hp)

/-- A reference is refused as before, and its template makes way unless it has already. -/
theorem reference_iff {reference : NodeId} (hreference : t₀.form reference = .ident) :
    t.refusal scope reference = t₀.refusal scope reference ∧ ∀ n,
      t.MakesWay scope reference n ↔ t₀.MakesWay scope reference n ∧ ¬ gone n := by
  have hlt : reference < t₀.size := lt_size_of_form (by rw [hreference]; decide)
  by_cases hgone : ∃ m, gone m ∧ t₀.Below reference m
  · obtain ⟨m, hm, hbelow⟩ := hgone
    have henclosing := h.enclosing_of_below ht₀ hm hbelow
    have hoff := h.not_isAttached ht₀ hm hbelow
    constructor
    · have hfine : t₀.restriction scope.allowAnywhere reference = none := by
        rw [restriction, henclosing, Option.bind_some,
          if_pos ((permits_iff ..).mp (h.permitted m hm))]
      rw [refusal, hoff, refusal, hfine, ite_self]
      rfl
    · refine fun n => ⟨fun hn => absurd (hoff.symm.trans hn.1) (by simp), fun ⟨hn, hnot⟩ => ?_⟩
      obtain rfl := Option.some.inj (henclosing.symm.trans hn.2.1)
      exact absurd hm hnot
  · have hway : SameWay t₀ t reference := by
      refine h.sameWay ht₀ hlt fun m hm hwithin => ?_
      rcases Relation.reflTransGen_iff_eq_or_transGen.mp hwithin with rfl | hbelow
      · exact absurd (hreference.symm.trans (h.form_eq_template ht₀ hm)) (by decide)
      · exact hgone ⟨m, hm, hbelow⟩
    refine ⟨hway.refusal_eq ht₀.sound h.moves h.span scope, fun n => ?_⟩
    rw [hway.makesWay_iff ht₀.sound h.moves scope fun henclosing =>
      h.staticClasses_eq ht₀ (ht₀.sound.linked.form_of_enclosing henclosing).2 _]
    refine (and_iff_left_of_imp fun hn hm => hgone ⟨n, hm, ?_⟩).symm
    exact ht₀.sound.linked.mem_ancestors_iff.mp (List.mem_of_find?_eq_some hn.2.1)

end Gone

section Steps

variable {s : Stylist} (h : Refilled callee scope gone t₀ t f) (ht₀ : t₀.Ready)
  (hs : s.generate = Generator.runtimeCall callee)
include h ht₀ hs

/-- One more template makes way for a call. -/
theorem replaceTemplate {above : NodeId} {classes : Text} (htemplate : ¬ gone template)
    (hpermits : Stylist.permits scope template t₀ = true)
    (hstatic : t₀.staticClasses template scope.builder = some classes)
    (hparent : t₀.parent template = some above) :
    ∃ f', Refilled callee scope (fun n => gone n ∨ n = template) t₀
      (s.replaceTemplate template classes t).tree f' := by
  have ht := h.moves.sound ht₀.sound
  have hlinked := ht₀.sound.linked
  have hlt := lt_size_of_parent hparent
  have hform := (within_static hlinked (ht₀.paired template) hstatic).1
  have hin {n : NodeId} (hn : n < t₀.size) : n < t.size :=
    Nat.lt_of_lt_of_le hn (h.moves.size_le ht₀.sound)
  have hold {n : NodeId} (hn : gone n) : n ≠ template := fun heq => htemplate (heq ▸ hn)
  obtain ⟨call, hrecalled⟩ := Stylist.recalled_replaceTemplate ht hs
    ((h.moves.paired_iff ht₀.sound hlt).mpr (ht₀.paired template))
    ((h.staticClasses_eq ht₀ hlt scope.builder).trans hstatic)
    ((h.stays template hlt htemplate).trans hparent)
  generalize (s.replaceTemplate template classes t).tree = t' at *
  have hmoves := h.moves.trans hrecalled.placed.kept.moves
  have hself (c : NodeId) (hc : f c = template) : c = template := by
    by_cases hgone : gone c
    · exact absurd hlt (Nat.not_lt.mpr (hc ▸ h.behind c hgone))
    · exact (h.fixed c hgone).symm.trans hc
  -- Above the template no other template has made way.
  have hway : SameWay t₀ t' above := by
    intro m hm
    have hmlt := hm.lt_size hlinked (hlinked.parent_lt_size hparent)
    rw [hrecalled.parent m (hin hmlt), if_neg, h.stays m hmlt]
    · intro hgone
      exact hold hgone (h.eq_of_template ht₀ hgone (.head hparent hm) hform).symm
    · rintro rfl
      exact hlinked.not_within_of_parent hparent hm
  have hchain (n : NodeId) : n ∈ above :: t'.ancestors above ↔ t₀.Below template n := by
    rw [hway.ancestors_eq ht₀.sound hmoves, ← hlinked.ancestors_eq_cons hparent,
      hlinked.mem_ancestors_iff]
  refine ⟨Function.update f template call, {
    moves := hmoves, permitted := ?permitted, known := ?known, kind := ?kind, span := ?span,
    stays := ?stays, cut := ?cut, dirty := ?dirty, fixed := ?fixed, behind := ?behind,
    place := ?place, call := ?call }⟩
  case permitted =>
    rintro n (hn | rfl)
    · exact h.permitted n hn
    · exact hpermits
  case known =>
    rintro n (hn | rfl)
    · exact h.known n hn
    · rw [hstatic]
      rfl
  case kind =>
    intro n hn
    rw [hrecalled.kind n (hin hn)]
    split
    case isTrue heq =>
      subst heq
      rw [h.kind n hn]
      exact Kind.replaceChild_map call (hlinked.nodup n) (h.fixed template htemplate) hself
    case isFalse hne =>
      rw [h.kind n hn]
      refine Kind.map_congr fun c hc => (Function.update_of_ne ?_ ..).symm
      rintro rfl
      exact hne (Option.some.inj ((hlinked.mem_children.mp hc).symm.trans hparent))
  case span =>
    intro n hn
    rw [hrecalled.placed.kept.span n (hin hn), h.span n hn]
  case stays =>
    intro n hn hgone
    rw [hrecalled.parent n (hin hn), if_neg fun heq => hgone (.inr heq),
      h.stays n hn fun hg => hgone (.inl hg)]
  case cut =>
    rintro n (hn | rfl)
    · rw [hrecalled.parent n (hin (h.lt_size ht₀ hn)), if_neg (hold hn), h.cut n hn]
    · rw [hrecalled.parent n (hin hlt), if_pos rfl]
  case dirty =>
    intro n hn
    rw [hrecalled.dirty n (hin hn), Bool.or_eq_true, h.dirty n hn, decide_eq_true_eq, hchain]
    simp only [or_and_right, exists_or, exists_eq_left, or_assoc]
  case fixed =>
    intro n hn
    rw [Function.update_of_ne fun heq => hn (.inr heq)]
    exact h.fixed n fun hg => hn (.inl hg)
  case behind =>
    rintro n (hn | rfl)
    · rw [Function.update_of_ne (hold hn)]
      exact h.behind n hn
    · rw [Function.update_self]
      exact Nat.le_trans (h.moves.size_le ht₀.sound) hrecalled.placed.behind
  case place =>
    rintro n (hn | rfl)
    · obtain ⟨classes', hclasses⟩ := Option.isSome_iff_exists.mp (h.known n hn)
      have himage : f n < t.size :=
        lt_size_of_form (by rw [(h.call n classes' hn hclasses).form_eq]; decide)
      rw [Function.update_of_ne (hold hn), hrecalled.placed.kept.span _ himage, h.place n hn]
    · rw [Function.update_self, hrecalled.placed.span, h.span n hlt]
  case call =>
    rintro n classes' (hn | rfl) hclasses
    · rw [Function.update_of_ne (hold hn)]
      exact hrecalled.settled.calls (h.call n classes' hn hclasses)
    · obtain rfl := Option.some.inj (hstatic.symm.trans hclasses)
      rw [Function.update_self]
      exact hrecalled.isCall

/-- One more reference is restyled.  Whether it fails, and what becomes of its template, can be
told from the module as it was read. -/
theorem restyleReference (hoff : s.annotator.enabled = false) {reference : NodeId}
    (hreference : t₀.form reference = .ident) :
    (s.restyleReference scope reference t).failure = t₀.refusal scope reference ∧
      ∃ f', Refilled callee scope (fun n => gone n ∨ t₀.MakesWay scope reference n) t₀
        (s.restyleReference scope reference t).tree f' := by
  have hlinked := ht₀.sound.linked
  obtain ⟨hrefusal, hmakes⟩ := h.reference_iff ht₀ hreference
  rw [← hrefusal]
  rcases s.restyleReference_cases scope reference t with
    ⟨hnone, hstep⟩ | ⟨template, classes, hmade, hstatic, hfine, hstep⟩
  · have heq : (fun n => gone n ∨ t₀.MakesWay scope reference n) = gone := by
      refine funext fun n => propext ⟨fun hn => ?_, .inl⟩
      by_contra hgone
      exact hnone n ((hmakes n).mpr ⟨hn.resolve_left hgone, hgone⟩)
    rw [hstep, heq]
    exact ⟨rfl, f, h⟩
  · obtain ⟨hmade₀, hgone⟩ := (hmakes template).mp hmade
    have ⟨hattached, henclosing, hpermits, _⟩ := hmade₀
    obtain ⟨hform, hlt⟩ := hlinked.form_of_enclosing henclosing
    obtain ⟨-, above, hparent⟩ := exists_above hlinked hattached
      (hlinked.mem_ancestors_iff.mp (List.mem_of_find?_eq_some henclosing)).to_reflTransGen (by
        rintro rfl
        exact absurd (ht₀.root.symm.trans hform) (by decide))
    rw [h.staticClasses_eq ht₀ hlt] at hstatic
    have heq : (fun n => gone n ∨ t₀.MakesWay scope reference n) =
        fun n => gone n ∨ n = template := by
      refine funext fun n => propext (or_congr_right ⟨fun hn => ?_, ?_⟩)
      · exact Option.some.inj (hn.2.1.symm.trans henclosing)
      · rintro rfl
        exact hmade₀
    rw [hstep, Stylist.annotateAround_of_off hoff, heq, hfine]
    refine ⟨?_, h.replaceTemplate ht₀ hs hgone hpermits hstatic hparent⟩
    unfold Stylist.replaceTemplate
    rw [hs]
    rfl

/-- Several references are restyled, whatever their order and however often one is among them. -/
theorem restyleReferences (hoff : s.annotator.enabled = false) {references : List NodeId}
    (hreferences : ∀ r ∈ references, t₀.form r = .ident) :
    (s.restyleReferences scope references t).1 = references.filterMap (t₀.refusal scope) ∧
      ∃ f', Refilled callee scope (fun n => gone n ∨ ∃ r ∈ references, t₀.MakesWay scope r n) t₀
        (s.restyleReferences scope references t).2 f' := by
  induction references generalizing t gone f with
  | nil =>
    have heq : (fun n => gone n ∨ ∃ r ∈ [], t₀.MakesWay scope r n) = gone := by simp
    rw [heq]
    exact ⟨rfl, f, h⟩
  | cons r rest ih =>
    obtain ⟨hfailure, f', hstep⟩ :=
      h.restyleReference ht₀ hs hoff (hreferences r List.mem_cons_self)
    obtain ⟨hfailures, f'', hrest⟩ := ih hstep fun x hx => hreferences x (List.mem_cons_of_mem _ hx)
    rw [Stylist.restyleReferences]
    dsimp only
    rw [hfailure, hfailures, List.filterMap_cons]
    refine ⟨?_, f'', ?_⟩
    · cases t₀.refusal scope r <;> rfl
    · have heq : (fun n => gone n ∨ ∃ x ∈ r :: rest, t₀.MakesWay scope x n) =
          fun n => (gone n ∨ t₀.MakesWay scope r n) ∨ ∃ x ∈ rest, t₀.MakesWay scope x n := by
        refine funext fun n => propext ?_
        simp only [List.mem_cons, or_and_right, exists_or, exists_eq_left, or_assoc]
      rw [heq]
      exact hrest

end Steps

end Refilled

section Printing

variable {callee classes : Text} {scope : Scope} {gone : NodeId → Prop} {t₀ t t' : Tree}
  {f f' : NodeId → NodeId} {n n' : NodeId}

/-- A node that is not copied is written around what is printed of its children. -/
theorem printWithin_succ (d : Nat) (h : t.dirty n = true ∨ t.span n = none) :
    t.printWithin (d + 1) n = ((t.span n).map Printed.mark).getD Printed.empty ++
      ((t.kind n).map (t.printWithin d)).render (t.inAttribute n) := by
  rw [printWithin]
  cases hspan : t.span n with
  | none => rfl
  | some s =>
    have hdirty : (t.node n).dirty = true := h.resolve_right (by simp [hspan])
    rw [hdirty]

/-- Printing is not cut short by any bound that is as large as the store. -/
theorem Linked.print_eq (ht : t.Linked) {d : Nat} (hd : t.size ≤ d) :
    t.print = t.printWithin d root :=
  (ht.printWithin_eq (Nat.le_add_right ..) hd).symm

/-- Calls for the same classes in the same place are printed the same. -/
theorem IsCall.printWithin_eq (h : t.IsCall callee classes n) (h' : t'.IsCall callee classes n')
    (ht : t.Linked) (ht' : t'.Linked) (hspan : t.span n = t'.span n') (hdirty : t.dirty n = true)
    (hdirty' : t'.dirty n' = true) (d : Nat) : t.printWithin d n = t'.printWithin d n' := by
  have hparts {t : Tree} {n : NodeId} (h : t.IsCall callee classes n) (ht : t.Linked) (d : Nat) :
      (t.kind n).map (t.printWithin (d + 1)) = .call (Printed.ofText callee)
        [Printed.ofText (Text.quoted '"' classes.collapse)] := by
    obtain ⟨name, argument, hkind, hname, hargument, hnamespan, hargumentspan⟩ := h
    have hvalue : t.inAttribute argument = false := by
      rw [inAttribute, ht.parent_of_kind hkind (by simp [Kind.children]), Option.any_some,
        form, hkind]
      rfl
    rw [hkind, Kind.map, List.map_singleton, printWithin_succ d (.inr hnamespan),
      printWithin_succ d (.inr hargumentspan), hname, hargument, hvalue, hnamespan, hargumentspan]
    rfl
  cases d with
  | zero => rfl
  | succ d =>
    rw [printWithin_succ d (.inl hdirty), printWithin_succ d (.inl hdirty'), hspan]
    cases d with
    | zero =>
      obtain ⟨name, argument, hkind, -⟩ := h
      obtain ⟨name', argument', hkind', -⟩ := h'
      rw [hkind, hkind']
      rfl
    | succ d =>
      rw [hparts h ht, hparts h' ht']
      rfl

/-- Where the same templates have made way, the same is printed. -/
theorem Refilled.printWithin_eq (h : Refilled callee scope gone t₀ t f)
    (h' : Refilled callee scope gone t₀ t' f') (ht₀ : t₀.Ready) (hclean : Faithful t₀ t₀) (d : Nat)
    (hn : n < t₀.size) (hout : ∀ m, gone m → ¬ t₀.Below n m) :
    t.printWithin d (f n) = t'.printWithin d (f' n) := by
  have hlinked {t : Tree} {f : NodeId → NodeId} (h : Refilled callee scope gone t₀ t f) :
      t.Linked :=
    (h.moves.sound ht₀.sound).linked
  induction d generalizing n with
  | zero => rfl
  | succ d ih =>
    by_cases hgone : gone n
    · obtain ⟨classes, hclasses⟩ := Option.isSome_iff_exists.mp (h.known n hgone)
      have hdirty {t : Tree} {f : NodeId → NodeId} (h : Refilled callee scope gone t₀ t f) :
          t.dirty (f n) = true := by
        refine (hclean.moves ht₀.sound h.moves).added _ (h.behind n hgone) (lt_size_of_form ?_)
        rw [(h.call n classes hgone hclasses).form_eq]
        decide
      exact (h.call n classes hgone hclasses).printWithin_eq (h'.call n classes hgone hclasses)
        (hlinked h) (hlinked h') ((h.place n hgone).trans (h'.place n hgone).symm) (hdirty h)
        (hdirty h') (d + 1)
    · have hdirty : (t.node n).dirty = (t'.node n).dirty := by
        rw [Bool.eq_iff_iff]
        exact (h.dirty n hn).trans (h'.dirty n hn).symm
      have hsource : t.source = t'.source :=
        (hclean.moves ht₀.sound h.moves).source.trans (hclean.moves ht₀.sound h'.moves).source.symm
      have hattribute : t.inAttribute n = t'.inAttribute n := by
        unfold inAttribute
        rw [h.stays n hn hgone, h'.stays n hn hgone]
        cases hp : t₀.parent n with
        | none => rfl
        | some p =>
          have hplt := ht₀.sound.linked.parent_lt_size hp
          rw [Option.any_some, Option.any_some, h.moves.form_eq ht₀.sound hplt,
            h'.moves.form_eq ht₀.sound hplt]
      have hbelow : (t.kind n).map (t.printWithin d) = (t'.kind n).map (t'.printWithin d) := by
        rw [h.kind n hn, h'.kind n hn, Kind.map_map, Kind.map_map]
        refine Kind.map_congr fun c hc => ?_
        have hp := ht₀.sound.linked.mem_children.mp hc
        refine ih (lt_size_of_parent hp) fun m hm hbelow => ?_
        rcases Relation.reflTransGen_iff_eq_or_transGen.mp (hbelow.parent_within hp) with rfl | hb
        · exact hgone hm
        · exact hout m hm hb
      rw [h.fixed n hgone, h'.fixed n hgone, printWithin, printWithin, h.span n hn, h'.span n hn,
        hdirty, hsource, hattribute, hbelow]

end Printing

end Tree

/-- What a reference among others is answered with when its turn comes, the others being
restyled in order. -/
def Stylist.Answers (s : Stylist) (scope : Scope) (t : Tree) (references : List NodeId)
    (reference : NodeId) (failure : Option StyleError) : Prop :=
  ∃ done todo, references = done ++ reference :: todo ∧
    (s.restyleReference scope reference (s.restyleReferences scope done t).2).failure = failure

namespace Tree

/-- **References are independent of each other.**  In a module as it was read, references may be
restyled in any order, and again and again: if nothing is annotated, the output is the same in
code and mappings, so are the failures but for their order, and each reference is answered alike. -/
theorem references_in_any_order {source : Text} {t₀ : Tree} {s : Stylist} {callee : Text}
    {references references' : List NodeId} (hread : ofSource source = .ok t₀)
    (hs : s.generate = Generator.runtimeCall callee) (hoff : s.annotator.enabled = false)
    (scope : Scope) (hreferences : ∀ r ∈ references, ∃ name, t₀.kind r = .ident name)
    (hperm : references.Perm references') :
    (s.restyleReferences scope references t₀).2.print =
        (s.restyleReferences scope references' t₀).2.print ∧
      (s.restyleReferences scope references t₀).1.Perm
        (s.restyleReferences scope references' t₀).1 ∧
      ∀ reference failure, s.Answers scope t₀ references reference failure ↔
        s.Answers scope t₀ references' reference failure := by
  have ht₀ := ready_ofSource hread
  have hform : ∀ r ∈ references, t₀.form r = .ident := fun r hr => by
    obtain ⟨name, hname⟩ := hreferences r hr
    exact congrArg Kind.form hname
  have hform' : ∀ r ∈ references', t₀.form r = .ident := fun r hr => hform r (hperm.mem_iff.mpr hr)
  have hrun {rs : List NodeId} (hrs : ∀ r ∈ rs, t₀.form r = .ident) :=
    (Refilled.refl callee scope t₀).restyleReferences ht₀ hs hoff hrs
  obtain ⟨hfailures, f, hfilled⟩ := hrun hform
  obtain ⟨hfailures', f', hfilled'⟩ := hrun hform'
  -- The same templates have made way.
  simp only [← hperm.mem_iff] at hfilled'
  refine ⟨?_, ?_, fun reference failure => ?_⟩
  · have hroot : ¬ (False ∨ ∃ r ∈ references, t₀.MakesWay scope r root) := fun hgone =>
      absurd (ht₀.root.symm.trans (hfilled.form_eq_template ht₀ hgone)) (by decide)
    have hfree : ∀ m, (False ∨ ∃ r ∈ references, t₀.MakesWay scope r m) → ¬ t₀.Below root m := by
      intro m _ hbelow
      obtain ⟨p, hp, -⟩ := Relation.TransGen.head'_iff.mp hbelow
      exact absurd (ht₀.sound.linked.root_free.symm.trans hp) (by simp)
    have hprint := hfilled.printWithin_eq (n := root) hfilled' ht₀ (faithful_ofSource hread)
      (max (s.restyleReferences scope references t₀).2.size
        (s.restyleReferences scope references' t₀).2.size) ht₀.sound.linked.nonempty hfree
    rw [hfilled.fixed root hroot, hfilled'.fixed root hroot,
      ← (hfilled.moves.sound ht₀.sound).linked.print_eq (Nat.le_max_left ..),
      ← (hfilled'.moves.sound ht₀.sound).linked.print_eq (Nat.le_max_right ..)] at hprint
    exact hprint
  · rw [hfailures, hfailures']
    exact hperm.filterMap _
  · have hanswers {rs : List NodeId} (hrs : ∀ r ∈ rs, t₀.form r = .ident) :
        s.Answers scope t₀ rs reference failure ↔
          reference ∈ rs ∧ t₀.refusal scope reference = failure := by
      have hturn {done todo : List NodeId} (hsplit : rs = done ++ reference :: todo) :
          (s.restyleReference scope reference (s.restyleReferences scope done t₀).2).failure =
            t₀.refusal scope reference := by
        subst hsplit
        obtain ⟨-, g, hdone⟩ := hrun fun r hr => hrs r (List.mem_append_left _ hr)
        exact (hdone.restyleReference ht₀ hs hoff (hrs reference (by simp))).1
      constructor
      · rintro ⟨done, todo, hsplit, hfailure⟩
        exact ⟨by rw [hsplit]; simp, (hturn hsplit).symm.trans hfailure⟩
      · rintro ⟨hmem, hfailure⟩
        obtain ⟨done, todo, hsplit⟩ := List.append_of_mem hmem
        exact ⟨done, todo, hsplit, (hturn hsplit).trans hfailure⟩
    rw [hanswers hform, hanswers hform', hperm.mem_iff]

/-- A template in a template, a template that tags a template, and one that may not stand
where it stands and whose reference comes up twice. -/
theorem nested_references_in_any_order :
    ∃ (source : Text) (t₀ : Tree) (s : Stylist) (scope : Scope)
      (references references' : List NodeId),
      source = Text.ofString
        "x = <a css=\x7btw\x60p$\x7btw\x60q\x60\x7d\x60\x7d id=\x7btw\x60v\x60\x7d css=\x7btw\x60r\x60\x60s\x60\x7d />" ∧
      s = ⟨Generator.runtimeCall (Text.ofString "twStyles"), ⟨false, Text.ofString "data-tw"⟩⟩ ∧
      scope = { builder := some (Text.ofString "tw") } ∧ references = [8, 2, 3, 12, 8] ∧
      references' = [12, 3, 8, 8, 2] ∧ ofSource source = .ok t₀ ∧
      (∀ r ∈ references, ∃ name, t₀.kind r = .ident name) ∧ references.Perm references' ∧
      (s.restyleReferences scope references t₀).2.print =
        (s.restyleReferences scope references' t₀).2.print ∧
      (s.restyleReferences scope references t₀).1.Perm
        (s.restyleReferences scope references' t₀).1 ∧
      (∀ reference failure, s.Answers scope t₀ references reference failure ↔
        s.Answers scope t₀ references' reference failure) ∧
      (s.restyleReferences scope references t₀).2.print.code = Text.ofString
        ("x = <a css=\x7btw\x60p$\x7btwStyles(\"q\")\x7d\x60\x7d id=\x7btw\x60v\x60\x7d " ++
          "css=\x7btwStyles(\"r\")\x60s\x60\x7d />") ∧
      (s.restyleReferences scope references t₀).1 =
        [⟨.styleRestricted, some ⟨31, 36⟩⟩, ⟨.styleRestricted, some ⟨31, 36⟩⟩] := by
  obtain ⟨source, hsource⟩ : ∃ source : Text, source = Text.ofString
      "x = <a css=\x7btw\x60p$\x7btw\x60q\x60\x7d\x60\x7d id=\x7btw\x60v\x60\x7d css=\x7btw\x60r\x60\x60s\x60\x7d />" :=
    ⟨_, rfl⟩
  obtain ⟨s, hs⟩ : ∃ s : Stylist,
      s = ⟨Generator.runtimeCall (Text.ofString "twStyles"), ⟨false, Text.ofString "data-tw"⟩⟩ :=
    ⟨_, rfl⟩
  obtain ⟨scope, hscope⟩ :
      ∃ scope : Scope, scope = { builder := some (Text.ofString "tw") } := ⟨_, rfl⟩
  have hrun : ((ofSource source).toOption.any fun t₀ =>
      (∀ r ∈ [8, 2, 3, 12, 8], t₀.kind r = .ident (Text.ofString "tw")) ∧
        (s.restyleReferences scope [8, 2, 3, 12, 8] t₀).2.print.code = Text.ofString
          ("x = <a css=\x7btw\x60p$\x7btwStyles(\"q\")\x7d\x60\x7d id=\x7btw\x60v\x60\x7d " ++
            "css=\x7btwStyles(\"r\")\x60s\x60\x7d />") ∧
        (s.restyleReferences scope [8, 2, 3, 12, 8] t₀).1 =
          [⟨.styleRestricted, some ⟨31, 36⟩⟩, ⟨.styleRestricted, some ⟨31, 36⟩⟩]) = true := by
    subst hsource hs hscope
    decide +kernel
  obtain ⟨t₀, hread, hfacts⟩ := exists_of_any hrun
  obtain ⟨hkinds, hcode, hfailures⟩ := of_decide_eq_true hfacts
  have hreferences : ∀ r ∈ [8, 2, 3, 12, 8], ∃ name, t₀.kind r = .ident name := fun r hr =>
    ⟨_, hkinds r hr⟩
  have hperm : [8, 2, 3, 12, 8].Perm [12, 3, 8, 8, 2] := by decide
  obtain ⟨hprint, hsame, hanswers⟩ := references_in_any_order hread
    (show s.generate = Generator.runtimeCall (Text.ofString "twStyles") by rw [hs])
    (by rw [hs]) scope
    hreferences hperm
  exact ⟨source, t₀, s, scope, _, _, hsource, hs, hscope, rfl, rfl, hread, hreferences,
    hperm, hprint,
    hsame, hanswers, hcode, hfailures⟩

end Tree

end JsxStyle
