import JsxStyle.Proofs.InStep

/-!
# An annotation in one of two alike stores

An annotation is put into the annotated store only.  It adds a string, and
perhaps an attribute above it, and of the nodes that were there it changes one:
a tag gets one attribute more, or an annotation another string.  The stores are
alike afterwards, but along another renaming, since the nodes to come have
other identifiers now.

* `Inscribed`: what an annotation does to the kinds of nodes;
* `inscribed_attachTo`, `inscribed_attachAfter`: for the two places that an
  annotation may be put in;
* `Alike.inscribed`: the renaming afterwards.
-/

namespace JsxStyle

namespace Tree

/-- What an annotation does to a node that was there before. -/
inductive Inscribing (label : Text) (t t' : Tree) (n : NodeId) : Prop
  | same (h : t'.kind n = t.kind n)
  /-- The node is a tag and lists the annotation now. -/
  | longer {name : Text} {before after : List NodeId} {new : NodeId} {selfClosing : Bool}
      (hkind : t.kind n = .opening name (before ++ after) selfClosing)
      (hkind' : t'.kind n = .opening name (before ++ new :: after) selfClosing)
      (hnew : t.size ≤ new ∧ new < t'.size) (hname : t'.attributeName new = some label)
  /-- The node is an annotation and has another string now. -/
  | extended {s s' : NodeId} (hkind : t.kind n = .attr label (some s)) (hform : t.form s = .str)
      (hkind' : t'.kind n = .attr label (some s')) (hform' : t'.form s' = .str)
      (hnew : t.size ≤ s' ∧ s' < t'.size)

/-- The store `t'` is `t` with an annotation called `label`, or with more in one. -/
structure Inscribed (label : Text) (t t' : Tree) : Prop where
  size_le : t.size ≤ t'.size
  span_eq : ∀ n < t.size, t'.span n = t.span n
  old : ∀ n < t.size, Inscribing label t t' n
  added : ∀ e, t.size ≤ e → e < t'.size → t'.form e = .str ∨
    ∃ s, t'.kind e = .attr label (some s) ∧ t'.form s = .str ∧ t.size ≤ s ∧ s < t'.size

theorem Inscribed.refl (label : Text) (t : Tree) : Inscribed label t t where
  size_le := Nat.le_refl _
  span_eq _ _ := rfl
  old _ _ := .same rfl
  added _ he he' := absurd he' (Nat.not_lt.mpr he)

section Inscribing

variable {label : Text} {t t' : Tree} {n : NodeId}

theorem Inscribing.form_eq (h : Inscribing label t t' n) : t'.form n = t.form n := by
  cases h with
  | same h => exact form_eq_of_kind h
  | longer hkind hkind' =>
    rw [form, form, hkind, hkind']
    rfl
  | extended hkind _ hkind' =>
    rw [form, form, hkind, hkind']
    rfl

/-- An annotation keeps the names of the attributes there were. -/
theorem Inscribing.attributeName_eq (h : Inscribing label t t' n) :
    t'.attributeName n = t.attributeName n := by
  cases h with
  | same h => rw [attributeName, attributeName, h]
  | longer hkind hkind' => rw [attributeName, attributeName, hkind, hkind']
  | extended hkind _ hkind' => rw [attributeName, attributeName, hkind, hkind']

end Inscribing

/-- A string stays one. -/
theorem Inscribed.form_str {label : Text} {t t' : Tree} (h : Inscribed label t t') {n : NodeId}
    (hn : t.form n = .str) : t'.form n = .str := by
  rw [(h.old n (lt_size_of_form (by rw [hn]; decide))).form_eq, hn]

variable {t t' : Tree} {a : Annotator} {opening : NodeId} {classes : Text}

/-- The annotation that there is gets another string. -/
theorem inscribed_extend (ht : t.Sound) {attributes : List NodeId}
    (h : a.extend attributes classes t = some t') : Inscribed a.label t t' := by
  obtain rfl | ⟨existing, value, text, quote, -, hkind, hstr, hbelow, hresult⟩ := extend_cases ht h
  · exact .refl ..
  · have hadds : Adds t (t.alloc (.str (Annotator.extended text classes) quote) none).2 t.size :=
      .leaf t rfl
    have hgrown := (hadds.moves.sound ht).linked
    have hsize : (t.alloc (.str (Annotator.extended text classes) quote) none).2.size =
        t.size + 1 := size_alloc ..
    have hself : (t.alloc (.str (Annotator.extended text classes) quote) none).2.kind t.size =
        .str (Annotator.extended text classes) quote := by rw [kind_alloc, if_pos rfl]
    have hedit := editAt_replace hgrown
      ((hadds.parent_eq (lt_size_of_parent hbelow)).trans hbelow) hadds.lt_size
    generalize (t.alloc (.str (Annotator.extended text classes) quote) none).2 = u at *
    subst hresult
    have hne : t.size ≠ existing := Nat.ne_of_gt (ht.linked.parent_lt_size hbelow)
    have hnew : (u.replace value t.size).form t.size = .str := by
      rw [form, hedit.kind, if_neg hne, hself]
      rfl
    refine ⟨?_, fun n hn => ?_, fun n hn => ?_, fun e he he' => ?_⟩
    · rw [hedit.size, hsize]
      exact Nat.le_succ _
    · exact (hedit.span n).trans (congrArg Node.span (hadds.old n hn))
    · by_cases hnx : n = existing
      · subst hnx
        refine .extended hkind (congrArg Kind.form hstr) ?_ hnew
          ⟨Nat.le_refl _, hedit.size ▸ hadds.lt_size⟩
        rw [hedit.kind, if_pos rfl, hadds.kind_eq hn, hkind]
        simp [Kind.replaceChild]
      · exact .same (by rw [hedit.kind, if_neg hnx, hadds.kind_eq hn])
    · rw [hedit.size, hsize] at he'
      obtain rfl : e = t.size := Nat.le_antisymm (Nat.le_of_lt_succ he') he
      exact Or.inl hnew

/-- What a store looks like with a new annotation that is not put anywhere yet. -/
theorem fresh_spec (a : Annotator) (classes : Text) (t : Tree) :
    (a.fresh classes t).1 = t.size + 1 ∧ (a.fresh classes t).2.size = t.size + 2 ∧
      (∀ n, (a.fresh classes t).2.kind n = if n = t.size + 1 then .attr a.label (some t.size)
        else if n = t.size then .str classes '"' else t.kind n) ∧
      ∀ n < t.size, (a.fresh classes t).2.span n = t.span n := by
  have hrun : a.fresh classes t =
      alloc (.attr a.label (some t.size)) none (t.alloc (.str classes '"') none).2 := rfl
  have hsize : (t.alloc (.str classes '"') none).2.size = t.size + 1 := size_alloc ..
  have hkind := kind_alloc (.str classes '"') none t
  have hspan := span_alloc (.str classes '"') none t
  rw [hrun]
  generalize (t.alloc (.str classes '"') none).2 = u at *
  refine ⟨hsize, ?_, fun n => ?_, fun n hn => ?_⟩
  · rw [size_alloc, hsize]
  · rw [kind_alloc, hsize, hkind]
  · rw [span_alloc, hsize, hspan, if_neg (Nat.ne_of_lt (Nat.lt_succ_of_lt hn)),
      if_neg (Nat.ne_of_lt hn)]

/-- The store `t'` is `t` with a new annotation for `classes` somewhere in the tag `opening`. -/
inductive Tagged (a : Annotator) (classes : Text) (opening : NodeId) (t t' : Tree) : Prop
  | intro {name : Text} {before after : List NodeId} {selfClosing : Bool}
      {up : NodeId → Option NodeId}
      (hkind : t.kind opening = .opening name (before ++ after) selfClosing)
      (hedit : EditAt (a.fresh classes t).2 t' opening
        (.opening name (before ++ (a.fresh classes t).1 :: after) selfClosing) up)

/-- Tagging an opening tag inscribes it. -/
theorem Tagged.inscribed (h : Tagged a classes opening t t') : Inscribed a.label t t' := by
  obtain ⟨hkind, hedit⟩ := h
  obtain ⟨hnew, hsize, hfresh, hspan⟩ := fresh_spec a classes t
  have hlt : opening < t.size := lt_size_of_form (by rw [form, hkind]; simp [Kind.form])
  rw [hnew] at hedit
  generalize (a.fresh classes t).2 = u at *
  have hsize' : t'.size = t.size + 2 := hedit.size.trans hsize
  have hne {n : NodeId} (hn : t.size ≤ n) : n ≠ opening :=
    Nat.ne_of_gt (Nat.lt_of_lt_of_le hlt hn)
  have hattr : t'.kind (t.size + 1) = .attr a.label (some t.size) := by
    rw [hedit.kind, if_neg (hne (Nat.le_succ _)), hfresh, if_pos rfl]
  have hstr : t'.form t.size = .str := by
    rw [form, hedit.kind, if_neg (hne (Nat.le_refl _)), hfresh,
      if_neg (Nat.ne_of_lt (Nat.lt_succ_self _)), if_pos rfl]
    rfl
  have hlast : t.size + 1 < t'.size := by rw [hsize']; exact Nat.lt_succ_self _
  refine ⟨?_, fun n hn => ?_, fun n hn => ?_, fun e he he' => ?_⟩
  · rw [hsize']
    exact Nat.le_add_right ..
  · rw [hedit.span, hspan n hn]
  · by_cases hno : n = opening
    · subst hno
      refine .longer hkind ?_ ⟨Nat.le_succ _, hlast⟩ ?_
      · rw [hedit.kind, if_pos rfl]
      · rw [attributeName, hattr]
    · refine .same ?_
      rw [hedit.kind, if_neg hno, hfresh, if_neg (Nat.ne_of_lt (Nat.lt_succ_of_lt hn)),
        if_neg (Nat.ne_of_lt hn)]
  · rw [hsize'] at he'
    rcases Nat.eq_or_lt_of_le he with rfl | hlt
    · exact Or.inl hstr
    · obtain rfl : e = t.size + 1 := Nat.le_antisymm (Nat.le_of_lt_succ he') hlt
      exact Or.inr ⟨t.size, hattr, hstr, Nat.le_refl _, Nat.lt_trans (Nat.lt_succ_self _) hlast⟩

/-- An attempt to annotate that does not fail inscribes. -/
theorem inscribed_annotate (ht : t.Sound) (a : Annotator) {insert : NodeId → Tree → Option Tree}
    {target : NodeId} {attributes : List NodeId} {classes : Text}
    (hinsert : ∀ t',
      insert (a.fresh classes.collapse t).1 (a.fresh classes.collapse t).2 = some t' →
      Inscribed a.label t t')
    (hok : (a.annotate insert target attributes classes t).failure = none) :
    Inscribed a.label t (a.annotate insert target attributes classes t).tree := by
  unfold Annotator.annotate at *
  split at hok
  case isTrue hon =>
    rw [if_pos hon]
    cases hextended : a.extend attributes classes.collapse t with
    | some t' => exact inscribed_extend ht hextended
    | none =>
      rw [hextended] at hok
      dsimp only at *
      cases hinserted : insert (a.fresh classes.collapse t).1 (a.fresh classes.collapse t).2 with
      | some t' => exact hinsert _ hinserted
      | none =>
        rw [hinserted] at hok
        exact absurd hok (by simp)
  case isFalse hoff =>
    rw [if_neg hoff]
    exact .refl ..

/-- The tag in a store with a new annotation is the tag that was there. -/
theorem kind_fresh (a : Annotator) (classes : Text) (hopening : t.form opening = .opening) :
    ∃ name attributes selfClosing, t.kind opening = .opening name attributes selfClosing ∧
      (a.fresh classes t).2.kind opening = .opening name attributes selfClosing ∧
      opening < (a.fresh classes t).2.size ∧
      (a.fresh classes t).1 < (a.fresh classes t).2.size := by
  have hlt : opening < t.size := lt_size_of_form (by rw [hopening]; decide)
  obtain ⟨hnew, hsize, hfresh, -⟩ := fresh_spec a classes t
  unfold form at hopening
  cases hk : t.kind opening with
  | opening name attributes selfClosing =>
    refine ⟨name, attributes, selfClosing, rfl, ?_, ?_, ?_⟩
    · rw [hfresh, if_neg (Nat.ne_of_lt (Nat.lt_succ_of_lt hlt)), if_neg (Nat.ne_of_lt hlt), hk]
    · rw [hsize]
      exact Nat.lt_succ_of_lt (Nat.lt_succ_of_lt hlt)
    · rw [hnew, hsize]
      exact Nat.lt_succ_self _
  | _ => exact absurd hopening (by simp [hk, Kind.form])

/-- A new annotation at the end of a tag. -/
theorem tagged_append (hopening : t.form opening = .opening)
    (h : (a.fresh classes t).2.append opening (a.fresh classes t).1 = some t') :
    Tagged a classes opening t t' := by
  obtain ⟨name, items, selfClosing, hkind, hkind', hlt, hnew⟩ := kind_fresh a classes hopening
  obtain ⟨items', hitems, happended⟩ := append_eq_some h
  have hsame : items = items' := by simpa [hkind', Kind.items?] using hitems
  rw [happended, ← hsame]
  have hedit := editAt_setItems hlt hnew (items ++ [(a.fresh classes t).1])
  rw [hkind'] at hedit
  exact .intro (hkind.trans (by rw [List.append_nil])) hedit

/-- A new annotation behind an attribute of a tag. -/
theorem tagged_insertAfter (ht : t.Sound) {style : NodeId} (hparent : t.parent style = some opening)
    (hopening : t.form opening = .opening)
    (h : (a.fresh classes t).2.insertAfter style (a.fresh classes t).1 = some t') :
    Tagged a classes opening t t' := by
  obtain ⟨name, items, selfClosing, hkind, hkind', hlt, hnew⟩ := kind_fresh a classes hopening
  obtain ⟨above, items', habove, hitems, hmem, hinserted⟩ := insertAfter_eq_some h
  have hopen : opening = above := by
    have hold := (adds_fresh ht.linked a classes).1.parent_eq (lt_size_of_parent hparent)
    exact Option.some.inj (hparent.symm.trans (hold.symm.trans habove))
  have hsame : items = items' := by
    rw [← hopen, hkind'] at hitems
    simpa [Kind.items?] using hitems
  rw [hinserted, ← hopen, ← hsame]
  rw [← hsame] at hmem
  obtain ⟨xs, ys, rfl, hxs⟩ := List.eq_append_cons_of_mem hmem
  have hedit := editAt_setItems hlt hnew (xs ++ [style] ++ (a.fresh classes t).1 :: ys)
  have hsplit (zs : List NodeId) : xs ++ style :: zs = xs ++ [style] ++ zs := by simp
  rw [insertBehind_append hxs, hsplit]
  rw [hkind'] at hedit
  exact .intro (hkind.trans (by rw [hsplit])) hedit

/-- A tag is annotated at its end. -/
theorem inscribed_attachTo (ht : t.Sound) (a : Annotator) (hopening : t.form opening = .opening)
    {attributes : List NodeId} {classes : Text}
    (hok : (a.attachTo opening attributes classes t).failure = none) :
    Inscribed a.label t (a.attachTo opening attributes classes t).tree :=
  inscribed_annotate ht a (fun _ happend => (tagged_append hopening happend).inscribed) hok

/-- A tag is annotated behind one of its attributes. -/
theorem inscribed_attachAfter (ht : t.Sound) (a : Annotator) {style : NodeId}
    (hparent : t.parent style = some opening) (hopening : t.form opening = .opening)
    {attributes : List NodeId} {classes : Text}
    (hok : (a.attachAfter style attributes classes t).failure = none) :
    Inscribed a.label t (a.attachAfter style attributes classes t).tree :=
  inscribed_annotate ht a
    (fun _ hinsert => (tagged_insertAfter ht hparent hopening hinsert).inscribed) hok

section Realigned

/-- The renaming `f`, in step again with a store of `size'` nodes beside one of `size`. -/
def realigned (f : NodeId → NodeId) (size size' : Nat) (n : NodeId) : NodeId :=
  if n < size then f n else size' + (n - size)

variable {label : Text} {f : NodeId → NodeId} {a a' p : Tree}

/-- Realigned, the nodes there were keep their names. -/
theorem realigned_of_lt {size size' : Nat} {n : NodeId} (hn : n < size) :
    realigned f size size' n = f n :=
  if_pos hn

/-- Realigned, the nodes to be added are in step. -/
theorem realigned_add (f : NodeId → NodeId) (size size' k : Nat) :
    realigned f size size' (size + k) = size' + k := by
  rw [realigned, if_neg (Nat.not_lt.mpr (Nat.le_add_right ..)), Nat.add_sub_cancel_left]

/-- A number is below another or differs from it by a number. -/
theorem lt_or_eq_add (n size : NodeId) : n < size ∨ ∃ k : Nat, n = size + k :=
  (Nat.lt_or_ge n size).imp_right Nat.exists_eq_add_of_le

namespace Alike

/-- Among the nodes that were there before, the same ones are reached. -/
theorem reaches_realigned (h : Alike label f a p) (hsize : a.size ≤ a'.size) {e : NodeId}
    (he : e < a.size) : reaches (realigned f p.size a'.size) e = reaches f e := by
  rw [Bool.eq_iff_iff, reaches_iff, reaches_iff]
  constructor
  · rintro ⟨n, rfl⟩
    rcases lt_or_eq_add n p.size with hn | ⟨k, rfl⟩
    · exact ⟨n, (realigned_of_lt hn).symm⟩
    · rw [realigned_add] at he
      exact absurd he (Nat.not_lt.mpr (Nat.le_trans hsize (Nat.le_add_right ..)))
  · rintro ⟨n, rfl⟩
    exact ⟨n, realigned_of_lt (h.lt_size_iff.mp he)⟩

/-- Realigned, no two nodes have one name. -/
theorem realigned_injective (h : Alike label f a p) (hsize : a.size ≤ a'.size) :
    Function.Injective (realigned f p.size a'.size) := by
  have hne {i : NodeId} (hi : i < p.size) (k : Nat) : f i ≠ a'.size + k :=
    Nat.ne_of_lt (Nat.lt_of_lt_of_le (h.lt_size i hi) (Nat.le_trans hsize (Nat.le_add_right ..)))
  intro m n hmn
  rcases lt_or_eq_add m p.size with hm | ⟨k, rfl⟩
  · rcases lt_or_eq_add n p.size with hn | ⟨k, rfl⟩
    · rw [realigned_of_lt hm, realigned_of_lt hn] at hmn
      exact h.injective hmn
    · rw [realigned_of_lt hm, realigned_add] at hmn
      exact absurd hmn (hne hm k)
  · rcases lt_or_eq_add n p.size with hn | ⟨k', rfl⟩
    · rw [realigned_of_lt hn, realigned_add] at hmn
      exact absurd hmn.symm (hne hn k)
    · rw [realigned_add, realigned_add] at hmn
      exact congrArg (p.size + ·) (Nat.add_left_cancel hmn)

/-- The nodes that were added are not reached. -/
theorem unreached_realigned (h : Alike label f a p) {e : NodeId} (he : a.size ≤ e)
    (he' : e < a'.size) : reaches (realigned f p.size a'.size) e = false := by
  rw [← Bool.not_eq_true, reaches_iff]
  rintro ⟨n, rfl⟩
  rcases lt_or_eq_add n p.size with hn | ⟨k, rfl⟩
  · rw [realigned_of_lt hn] at he
    exact absurd (h.lt_size n hn) (Nat.not_lt.mpr he)
  · rw [realigned_add] at he'
    exact absurd he' (Nat.not_lt.mpr (Nat.le_add_right ..))

end Alike

/-- A kind looks the same along renamings that agree on its children. -/
theorem keepAttributes_congr {f g : NodeId → NodeId} {k k' : Kind NodeId}
    (hsame : k'.keepAttributes (reaches f) = k.map f)
    (hreach : ∀ e ∈ k'.children, reaches g e = reaches f e) (hmap : ∀ c ∈ k.children, g c = f c) :
    k'.keepAttributes (reaches g) = k.map g := by
  have hkeep : k'.keepAttributes (reaches g) = k'.keepAttributes (reaches f) := by
    cases k' with
    | opening name attributes selfClosing =>
      have hfilter : attributes.filter (reaches g) = attributes.filter (reaches f) :=
        List.filter_congr hreach
      simp only [Kind.keepAttributes, hfilter]
    | _ => rfl
  rw [hkeep, hsame, Kind.map_congr hmap]

namespace Alike

/-- A node that was there before has the same kind, but for annotations, also after one. -/
theorem twins_inscribed (h : Alike label f a p) (ha : a.Linked) (hp : p.Linked)
    (hi : Inscribed label a a') {n : NodeId} (hn : n < p.size) :
    Twins label (realigned f p.size a'.size) a' p n := by
  have hreach {e : NodeId} (he : e < a.size) := h.reaches_realigned hi.size_le he
  have hself : realigned f p.size a'.size n = f n := realigned_of_lt hn
  have hmap : ∀ c ∈ (p.kind n).children, realigned f p.size a'.size c = f c := fun c hc =>
    realigned_of_lt (hp.lt_size_of_mem hc)
  have hold : ∀ e ∈ (a.kind (f n)).children,
      reaches (realigned f p.size a'.size) e = reaches f e := fun e he =>
    hreach (ha.lt_size_of_mem he)
  cases hi.old (f n) (h.lt_size n hn) with
  | same hk =>
    rcases h.twins n with hsame | ⟨hkind, hform, hkind', hform', hunreached⟩
    · refine .same ?_
      rw [hself, hk]
      exact keepAttributes_congr hsame hold hmap
    · have hlt := lt_size_of_form (by rw [hform']; decide)
      exact .extended hkind hform (by rw [hself, hk, hkind']) (hi.form_str hform')
        ((hreach hlt).trans hunreached)
  | longer hkind hkind' hnew hname =>
    rcases h.twins n with hsame | ⟨-, -, hkind'', -, -⟩
    · have hsame := keepAttributes_congr hsame hold hmap
      refine .same ?_
      rw [hself, hkind', ← hsame, hkind]
      simp [Kind.keepAttributes, h.unreached_realigned hnew.1 hnew.2]
    · exact absurd (hkind.symm.trans hkind'') (by simp)
  | @extended s s' hkind hform hkind' hform' hnew =>
    have hunreached := h.unreached_realigned hnew.1 hnew.2
    rcases h.twins n with hsame | ⟨hkind'', hform'', -, -, -⟩
    · rw [hkind] at hsame
      -- The annotation was the same in both stores, and so was its string.
      cases hk : p.kind n with
      | attr name value =>
        rw [hk] at hsame
        obtain ⟨hname, hvalue⟩ := Kind.attr.inj hsame
        obtain ⟨m, rfl, rfl⟩ := Option.map_eq_some_iff.mp hvalue.symm
        subst hname
        exact .extended hk ((h.form_eq m).symm.trans hform) (by rw [hself, hkind']) hform'
          hunreached
      | _ => simp [hk, Kind.map, Kind.keepAttributes] at hsame
    · exact .extended hkind'' hform'' (by rw [hself, hkind']) hform' hunreached

/-- What is not reached after an annotation is one or the string of one. -/
theorem spare_inscribed (h : Alike label f a p) (hi : Inscribed label a a') {e : NodeId}
    (he : reaches (realigned f p.size a'.size) e = false) :
    Spare label (realigned f p.size a'.size) a' e := by
  rcases lt_or_eq_add e a'.size with hlt' | ⟨k, rfl⟩
  · rcases Nat.lt_or_ge e a.size with hlt | hge
    · rw [h.reaches_realigned hi.size_le hlt] at he
      cases h.spare e he with
      | string hform => exact .string (hi.form_str hform)
      | note hkind hform hunreached =>
        have hslt := lt_size_of_form (by rw [hform]; decide)
        cases hi.old e hlt with
        | same hk =>
          exact .note (hk.trans hkind) (hi.form_str hform)
            ((h.reaches_realigned hi.size_le hslt).trans hunreached)
        | longer hkind' => exact absurd (hkind.symm.trans hkind') (by simp)
        | extended _ _ hkind' hform' hnew =>
          exact .note hkind' hform' (h.unreached_realigned hnew.1 hnew.2)
    · rcases hi.added e hge hlt' with hform | ⟨s, hkind, hform, hnew⟩
      · exact .string hform
      · exact .note hkind hform (h.unreached_realigned hnew.1 hnew.2)
  · rw [← realigned_add f p.size a'.size k, reaches_self] at he
    exact absurd he (by simp)

/-- What a tag lists after an annotation and is not reached is an annotation. -/
theorem listed_inscribed (h : Alike label f a p) (ha : a.Linked) (hi : Inscribed label a a')
    {n e : NodeId} (hmem : e ∈ a'.attributes n)
    (he : reaches (realigned f p.size a'.size) e = false) : a'.attributeName e = some label := by
  have hlisted (hmem : e ∈ a.attributes n) : a'.attributeName e = some label := by
    have hlt := lt_size_of_parent (parent_of_mem_attributes ha hmem)
    rw [(hi.old e hlt).attributeName_eq]
    exact h.listed n e hmem ((h.reaches_realigned hi.size_le hlt).symm.trans he)
  have hnone (hn : a'.attributes n = []) : a'.attributeName e = some label := by
    rw [hn] at hmem
    exact absurd hmem (by simp)
  rcases Nat.lt_or_ge n a.size with hlt | hge
  · cases hi.old n hlt with
    | same hk =>
      rw [attributes_congr hk] at hmem
      exact hlisted hmem
    | longer hkind hkind' _ hname =>
      rw [attributes, hkind'] at hmem
      rcases List.mem_append.mp hmem with hmem | hmem
      · exact hlisted (by rw [attributes, hkind]; exact List.mem_append_left _ hmem)
      · rcases List.mem_cons.mp hmem with rfl | hmem
        · exact hname
        · exact hlisted (by rw [attributes, hkind]; exact List.mem_append_right _ hmem)
    | extended _ _ hkind' => exact hnone (by rw [attributes, hkind'])
  · refine hnone ?_
    unfold attributes
    rcases Nat.lt_or_ge n a'.size with hlt' | hge'
    · rcases hi.added n hge hlt' with hform | ⟨s, hkind, -⟩
      · unfold form at hform
        cases hk : a'.kind n <;> simp_all [Kind.form]
      · rw [hkind]
    · rw [kind_of_size_le hge']

/-- After an annotation the stores are alike, and nodes that were there before keep their
counterparts. -/
theorem inscribed (h : Alike label f a p) (ha : a.Linked) (hp : p.Linked)
    (hi : Inscribed label a a') :
    ∃ g, (∀ n < p.size, g n = f n) ∧ Alike label g a' p := by
  refine ⟨realigned f p.size a'.size, fun n hn => realigned_of_lt hn,
    h.realigned_injective hi.size_le, fun k => realigned_add .., fun n hn => ?_, ?_, fun n => ?_,
    fun n => ?_, fun e he => h.spare_inscribed hi he, fun n e => h.listed_inscribed ha hi⟩
  · rw [realigned_of_lt hn]
    exact Nat.lt_of_lt_of_le (h.lt_size n hn) hi.size_le
  · rw [realigned_of_lt (n := root) hp.nonempty, h.root_eq]
  · rcases lt_or_eq_add n p.size with hn | ⟨k, rfl⟩
    · rw [realigned_of_lt hn, hi.span_eq _ (h.lt_size n hn), h.span_eq]
    · rw [realigned_add, span, node_of_size_le (Nat.le_add_right ..), span,
        node_of_size_le (Nat.le_add_right ..)]
  · rcases lt_or_eq_add n p.size with hn | ⟨k, rfl⟩
    · exact h.twins_inscribed ha hp hi hn
    · refine .same ?_
      rw [realigned_add, kind_of_size_le (Nat.le_add_right ..),
        kind_of_size_le (Nat.le_add_right ..)]
      rfl

end Alike

end Realigned

end Tree

end JsxStyle
