import JsxStyle.Proofs.CheckedModule
import JsxStyle.Proofs.CheckedStyle
import JsxStyle.Proofs.Descent
import JsxStyle.Proofs.Fitted

/-!
# Checked compilation

Printing cuts what was not touched out of the source, an error is reported at the
place it points at, and an import statement that is written out again is cut at a quote.
With the checked readers, stores and handlers this makes a compilation that checks every
access, from the text of a module to the text that is printed.

* `Checked.compile`: the compilation that looks before it cuts or follows a link;
* `printWithin_eq`, `stripImport_eq`, `restyle_eq`: its parts find what they look for;
* `runs_without_fault`: on text it does what compiling does, whatever the settings, and
  the places that it goes by fit the source.
-/

namespace JsxStyle

namespace Checked

variable {ε : Type}

/-! ## Printing and positions -/

/-- Whether a node is the value of an attribute. -/
def inAttribute (t : Tree) (id : NodeId) : Checked ε Bool := do
  match (← nodeAt t id).parent with
  | none => return false
  | some above => return (← kindAt t above).form = .attr

/-- Prints a node and at most `depth - 1` levels below it. -/
def printWithin (t : Tree) : (depth : Nat) → NodeId → Checked ε Printed
  | 0, id => .error (.fault (.endless id))
  | depth + 1, id => do
    let n ← nodeAt t id
    match n.span, n.dirty with
    | some s, false => return Printed.ofText (← cut t.source s.lo s.hi)
    | s, _ => do
      let printed ← n.kind.traverse (printWithin t depth)
      return (s.map Printed.mark).getD Printed.empty ++ printed.render (← inAttribute t id)

/-- Prints the whole tree. -/
def print (t : Tree) : Checked ε Printed :=
  printWithin t t.size Tree.root

/-- The position of a failure in the source; one without a place counts as the beginning. -/
def failurePosition (source : Text) (e : StyleError) : Checked ε Position :=
  match e.span with
  | none => return {}
  | some s => positionAt source s.lo

/-! ## The import of the style builder -/

/-- The statement without the bindings called `name`, its source cut out from the first quote on. -/
def without (decl : ImportDecl) (name : Text) : Checked ε ImportDecl := do
  let default? := decl.default?.filter (· ≠ name)
  let named := decl.named.filter (·.bound ≠ name)
  let tail ← match decl.raw.findIdx? Byte.isQuote with
    | some i => cut decl.raw i decl.raw.length
    | none => pure ([Ascii.apostrophe] ++ decl.source ++ [Ascii.apostrophe, Ascii.newline])
  return { decl with
    default?, named
    raw := Text.ofString "import " ++ renderClause default? named ++
      Text.ofString " from " ++ tail }

/-- The first import of the style builder from one of `sources`. -/
def styleImport? (t : Tree) (sources : List Text) : Checked ε (Option StyleImport) := do
  (← kindAt t Tree.root).children.findSomeM? fun id => do
    match ← kindAt t id with
    | .importing decl =>
      return if sources.contains decl.source then decl.builder?.map (⟨id, ·⟩) else none
    | _ => return none

/-- The identifiers called `name`, in source order. -/
def referencesTo (t : Tree) (name : Text) : Checked ε (List NodeId) := do
  (← descendants t Tree.root).filterM fun id => return (← kindAt t id) = .ident name

/-- Whether a node uses `name`: as an identifier, as an element, or in its code. -/
def uses (t : Tree) (name : Text) (id : NodeId) : Checked ε Bool := do
  match ← kindAt t id with
  | .ident ident => return ident == name
  | .code code => mentionsFrom name code 0
  | .opening tag _ _ => return (Text.pieces Ascii.dot tag).head? == some name
  | _ => return false

/-- Whether anything in the module uses `name`. -/
def isReferenced (t : Tree) (name : Text) : Checked ε Bool := do
  (← descendants t Tree.root).anyM (uses t name)

/-- Takes the style builder out of the module's imports, unless it is still used. -/
def stripImport (t : Tree) (found : StyleImport) : Checked ε Tree := do
  match ← kindAt t found.node with
  | .importing decl =>
    let referenced ← isReferenced t found.name
    if referenced || decl.raw.contains Ascii.star then return t
    else
      let shared ← decl.boundNames.anyM fun other =>
        if other != found.name then isReferenced t other else pure false
      if shared then do
        let (kept, t) ← alloc (.importing (← without decl found.name)) none t
        replaceAt found.node kept t
      else remove found.node t
  | _ => return t

/-! ## Compiling -/

/-- Takes note of a failure: it is kept, or it ends the compilation. -/
def report (goOn : Bool) (d : Draft) (e : StyleError) : Checked StyleError Draft :=
  if goOn then return { d with failures := d.failures ++ [e] } else fail e

/-- Restyles one attribute, unless an earlier change took it out of the module. -/
def visitAttribute (goOn : Bool) (s : Stylist) (d : Draft) (attr : NodeId) :
    Checked StyleError Draft := do
  if ← isAttached d.tree attr then
    let name ← attributeName d.tree attr
    let step ← restyleAttribute s attr d.tree
    let next : Draft := { d with tree := step.tree, seen := d.seen.note name }
    match step.failure with
    | none => return next
    | some e => report goOn next e
  else return d

/-- Restyles the attributes that the module has at this moment. -/
def visitAttributes (goOn : Bool) (s : Stylist) (d : Draft) : Checked StyleError Draft := do
  let attributes ← (← descendants d.tree Tree.root).filterM fun id =>
    return (← kindAt d.tree id).form = .attr
  attributes.foldlM (visitAttribute goOn s) d

/-- Restyles the references to the style builder. -/
def visitReferences (goOn : Bool) (s : Stylist) (scope : Scope) (name : Text) (d : Draft) :
    Checked StyleError Draft := do
  let (failures, tree) ← restyleReferences s scope (← referencesTo d.tree name) d.tree
  failures.foldlM (report goOn) { d with tree }

/-- Restyles the attributes, unless there would have to be an import. -/
def firstPass (settings : Settings) (s : Stylist) (found : Option StyleImport) (t : Tree) :
    Checked StyleError Draft :=
  if settings.options.requireImport && found.isNone then return { tree := t }
  else visitAttributes settings.options.continueOnError s { tree := t }

/-- Restyles the references to the style builder and strips its import, if there is one. -/
def secondPass (settings : Settings) (s : Stylist) (found : Option StyleImport) (d : Draft) :
    Checked StyleError Draft :=
  match found with
  | none => return d
  | some found => do
    let d ← visitReferences settings.options.continueOnError s
      { allowAnywhere := settings.options.allowStyleProp, builder := some found.name } found.name d
    if settings.options.stripImport then return { d with tree := ← stripImport d.tree found }
    else return d

/-- Carries out the changes that the settings ask for. -/
def restyle (settings : Settings) (s : Stylist) (t : Tree) : Checked StyleError Draft := do
  let found ← styleImport? t settings.options.importSources
  secondPass settings s found (← firstPass settings s found t)

/-- The output of a module whose changes are done. -/
def output (d : Draft) (source : Text) : Checked ε Output := do
  let printed ← print d.tree
  let diagnostics ← d.failures.mapM fun e => do
    return ⟨← failurePosition source e, e.message⟩
  return { printed, seen := d.seen, diagnostics }

/-- The tree of a module. -/
def ofSource (source : Text) : Checked ReadError Tree := do
  ofBody source (← program source)

/-- Adds the nodes of a text that is one expression, apart from the program. -/
def graftSnippet (t : Tree) (code : Text) : Checked ReadError (NodeId × Tree) := do
  (graft (← snippet code)).run t

/-- A run with its error turned into another one. -/
def recast {ε' α : Type} (f : ε → Checked ε' ε') : Checked ε α → Checked ε' α
  | .ok a => return a
  | .error (.fault x) => .error (.fault x)
  | .error (.failure e) => do fail (← f e)

/-- Compiles a module with a given stylist. -/
def compileWith (s : Stylist) (settings : Settings) (source : Text) :
    Checked CompileError Output := do
  let tree ← recast (fun e => return .read (← positionAt source e.offset) e) (ofSource source)
  let draft ← recast (fun e => return .style (← failurePosition source e) e)
    (restyle settings s tree)
  output draft source

/-- Compiles a module. -/
def compile (settings : Settings) (source : Text) : Checked CompileError Output :=
  compileWith settings.stylist settings source

/-! ## What the checks find -/

section Printing

variable {t : Tree} {source : Text} {n : NodeId}

/-- Visiting the parts of a node is a map over them where each part passes. -/
theorem traverse_eq {α β : Type} {k : Kind α} {f' : α → Checked ε β} {f : α → β}
    (h : ∀ a ∈ k.children, f' a = pure (f a)) : k.traverse f' = pure (k.map f) := by
  cases k with
  | program items | array items | fragment items | opening _ items _ =>
    rw [Kind.traverse, mapM_eq (l := items) h, pure_bind]
    rfl
  | code | importing | text | str | ident => rfl
  | element head items _ | call head items | template head _ items =>
    obtain ⟨hhead, hitems⟩ := List.forall_mem_cons.mp h
    rw [Kind.traverse, hhead, pure_bind, mapM_eq hitems, pure_bind]
    rfl
  | spread a | member a _ =>
    rw [Kind.traverse, h a (List.mem_singleton_self a), pure_bind]
    rfl
  | attr _ value | container value =>
    cases value with
    | none => rfl
    | some a =>
      rw [Kind.traverse, Option.mapM_some, h a (List.mem_singleton_self a)]
      rfl

/-- The root is a node of the store. -/
theorem root_lt_size (ht : t.Linked) : Tree.root < t.size :=
  ht.nonempty

/-- Asking whether a node is in an attribute never fails on a linked store. -/
theorem inAttribute_eq (ht : t.Linked) (hn : n < t.size) :
    (inAttribute t n : Checked ε Bool) = pure (t.inAttribute n) := by
  rw [inAttribute, Tree.inAttribute, nodeAt_eq hn, pure_bind]
  cases hparent : t.parent n with
  | none => rw [show (t.node n).parent = none from hparent, Option.any_none]
  | some above =>
    rw [show (t.node n).parent = some above from hparent]
    dsimp only
    rw [kindAt_eq (ht.parent_lt_size hparent), pure_bind]
    rfl

/-- A node that was not touched is cut out of the source, and the links lead downwards. -/
theorem printWithin_eq (ht : t.Linked) (hfitted : t.Fitted source) {d : Nat} (hn : n < t.size)
    (hd : t.size ≤ d + (t.ancestors n).length) :
    (printWithin t d n : Checked ε _) = pure (t.printWithin d n) := by
  induction d generalizing n with
  | zero =>
    have hlt := ht.length_ancestorsWithin_lt t.size n
    rw [Nat.zero_add] at hd
    exact absurd hd (Nat.not_le.mpr hlt)
  | succ d ih =>
    have hbelow : ∀ c ∈ (t.node n).kind.children,
        (printWithin t d c : Checked ε _) = pure (t.printWithin d c) := by
      intro c hc
      refine ih (ht.lt_size_of_mem hc) ?_
      rw [ht.ancestors_eq_cons (ht.mem_children.mp hc), List.length_cons]
      omega
    rw [printWithin, nodeAt_eq hn, pure_bind, Tree.printWithin,
      show t.span n = (t.node n).span from rfl]
    have hplace : ∀ s, (t.node n).span = some s → s.Fits source := hfitted.place n
    cases hspan : (t.node n).span with
    | none =>
      dsimp only
      rw [traverse_eq hbelow, pure_bind, inAttribute_eq ht hn, pure_bind]
      rfl
    | some s =>
      have hfits := hplace s hspan
      cases hdirty : (t.node n).dirty with
      | true =>
        dsimp only
        rw [traverse_eq hbelow, pure_bind, inAttribute_eq ht hn, pure_bind]
        rfl
      | false =>
        dsimp only
        rw [hfitted.source_eq, cut_eq hfits.le hfits.lo hfits.hi, pure_bind]
        rfl

/-- Printing a store whose spans fit the source never fails. -/
theorem print_eq (ht : t.Linked) (hfitted : t.Fitted source) :
    (print t : Checked ε _) = pure t.print :=
  printWithin_eq ht hfitted (root_lt_size ht) (Nat.le_add_right ..)

/-- The position of an error that fits the source is found. -/
theorem failurePosition_eq (hsrc : source.Breaks) {e : StyleError} (he : e.Fits source) :
    (failurePosition source e : Checked ε _) = pure (e.position source) := by
  rw [failurePosition, StyleError.position]
  cases hspan : e.span with
  | none => rfl
  | some s => exact positionAt_eq hsrc (he s hspan).lo

end Printing

section Import

variable {t : Tree} {source : Text}

/-- A quote begins between characters. -/
theorem without_eq (decl : ImportDecl) (name : Text) :
    (without decl name : Checked ε _) = pure (decl.without name) := by
  rw [without, ImportDecl.without]
  cases hquote : decl.raw.findIdx? Byte.isQuote with
  | none => rfl
  | some i =>
    obtain ⟨hlt, hisQuote, -⟩ := List.findIdx?_eq_some_iff_getElem.mp hquote
    have hascii : (decl.raw[i]).isAscii = true := by
      rcases (by simpa [Byte.isQuote] using hisQuote : _ ∨ _) with h | h <;> rw [h] <;> rfl
    dsimp only
    rw [cut_eq (Nat.le_of_lt hlt)
      (Text.isBoundary_of_isAscii (List.getElem?_eq_getElem hlt) hascii)
      (Text.isBoundary_length _), pure_bind, Text.slice,
      List.take_of_length_le (Nat.le_of_eq List.length_drop)]

/-- The search for the style import never fails on a linked store. -/
theorem styleImport?_eq (ht : t.Linked) (sources : List Text) :
    (styleImport? t sources : Checked ε _) = pure (t.styleImport? sources) := by
  rw [styleImport?, kindAt_eq (root_lt_size ht), pure_bind]
  refine findSomeM?_eq fun id hid => ?_
  rw [kindAt_eq (ht.lt_size_of_mem hid), pure_bind]
  cases t.kind id <;> rfl

/-- What is found below the root is there. -/
theorem lt_size_of_mem_descendants (ht : t.Linked) {id : NodeId}
    (h : id ∈ t.descendants Tree.root) :
    id < t.size := by
  obtain ⟨p, hp, -⟩ := Relation.TransGen.head'_iff.mp (ht.mem_descendants_iff.mp h)
  exact Tree.lt_size_of_parent hp

/-- The search for references never fails on a linked store. -/
theorem referencesTo_eq (ht : t.Linked) (name : Text) :
    (referencesTo t name : Checked ε _) = pure (t.referencesTo name) := by
  rw [referencesTo, descendants_eq ht (root_lt_size ht), pure_bind]
  refine filterM_eq fun id hid => ?_
  rw [kindAt_eq (lt_size_of_mem_descendants ht hid), pure_bind]

/-- Asking whether a name is still referenced never fails where spans fit. -/
theorem isReferenced_eq (ht : t.Linked) (hfitted : t.Fitted source) (name : Text) :
    (isReferenced t name : Checked ε _) = pure (t.isReferenced name) := by
  rw [isReferenced, descendants_eq ht (root_lt_size ht), pure_bind]
  refine anyM_eq fun id hid => ?_
  rw [uses, Tree.uses, kindAt_eq (lt_size_of_mem_descendants ht hid), pure_bind]
  cases hkind : t.kind id with
  | code code => exact mentionsFrom_eq name (hfitted.code id code (by rw [hkind]; rfl)) 0
  | _ => rfl

/-- Stripping an import of the store never fails where spans fit. -/
theorem stripImport_eq (ht : t.Sound) (hfitted : t.Fitted source) {found : StyleImport}
    (hfound : found.node < t.size) :
    (stripImport t found : Checked ε _) = pure (t.stripImport found) := by
  have hresult := (Tree.moves_stripImport ht found).sound ht
  have hothers (names : List Text) : (names.anyM fun other =>
      if other != found.name then isReferenced t other else pure false : Checked ε Bool) =
        pure (names.any fun other => other != found.name && t.isReferenced other) := by
    refine anyM_eq fun other _ => ?_
    rw [isReferenced_eq ht.linked hfitted]
    cases other != found.name <;> rfl
  rw [stripImport, kindAt_eq hfound, pure_bind]
  unfold Tree.stripImport at hresult ⊢
  cases hkind : t.kind found.node with
  | importing decl =>
    rw [hkind] at hresult
    dsimp only at hresult ⊢
    rw [isReferenced_eq ht.linked hfitted, pure_bind]
    split
    case isTrue => rfl
    case isFalse hunused =>
      rw [if_neg hunused] at hresult
      rw [hothers, pure_bind]
      split
      case isTrue hshared =>
        rw [if_pos hshared] at hresult
        have hadds : Tree.Adds t (t.alloc (.importing (decl.without found.name)) none).2 t.size :=
          .leaf t rfl
        rw [without_eq, pure_bind, alloc_eq (by simp [Kind.children]), pure_bind]
        exact replaceAt_eq (hadds.moves.sound ht).linked
          (Nat.lt_of_lt_of_le hfound (hadds.moves.size_le ht)) hadds.lt_size hresult.linked
      case isFalse hshared =>
        rw [if_neg hshared] at hresult
        exact remove_eq ht.linked hfound hresult.linked
  | _ => rfl

end Import

section Drafts

variable {d : Draft} {s : Stylist} {goOn : Bool} {source : Text}

/-- Reporting a failure is the same with the accesses checked. -/
theorem report_eq (goOn : Bool) (d : Draft) (e : StyleError) :
    report goOn d e = of (d.report goOn e) := by
  rw [report, Draft.report]
  split <;> rfl

/-- A run over a list checks its accesses if each step does where the steps before lead to. -/
theorem foldlM_eq {σ α : Type} {P : σ → Prop} {l : List α} {f' : σ → α → Checked ε σ}
    {f : σ → α → Except ε σ} (hf : ∀ b, P b → ∀ a ∈ l, f' b a = of (f b a))
    (hP : ∀ b, P b → ∀ a ∈ l, ∀ b', f b a = .ok b' → P b') {b : σ} (hb : P b) :
    l.foldlM f' b = of (l.foldlM f b) := by
  induction l generalizing b with
  | nil => rfl
  | cons a rest ih =>
    rw [List.foldlM_cons, List.foldlM_cons]
    refine bind_eq (hf b hb a List.mem_cons_self) fun b' hb' => ?_
    exact ih (fun b hb c hc => hf b hb c (List.mem_cons_of_mem a hc))
      (fun b hb c hc => hP b hb c (List.mem_cons_of_mem a hc)) (hP b hb a List.mem_cons_self b' hb')

/-- Visiting an attribute of a sound store is restyling it. -/
theorem visitAttribute_eq (hd : d.tree.Sound) (hplain : s.generate.Plain) {attr : NodeId}
    (hattr : attr < d.tree.size) :
    visitAttribute goOn s d attr = of (d.restyleAttribute goOn s attr) := by
  rw [visitAttribute, Draft.restyleAttribute, isAttached_eq hd.linked hattr, pure_bind]
  split
  · rw [attributeName_eq hattr, pure_bind, restyleAttribute_eq hd hplain hattr, pure_bind]
    dsimp only
    cases (s.restyleAttribute attr d.tree).failure with
    | none => rfl
    | some e => exact report_eq ..
  · rfl

/-- Visiting the attributes of a sound store is restyling them. -/
theorem visitAttributes_eq (hd : d.tree.Sound) (hplain : s.generate.Plain) :
    visitAttributes goOn s d = of (d.restyleAttributes goOn s) := by
  have hfilter : ((d.tree.descendants Tree.root).filterM fun id =>
      return (← kindAt d.tree id).form = .attr : Checked StyleError _) =
        pure ((d.tree.descendants Tree.root).filter fun id => d.tree.form id = .attr) := by
    refine filterM_eq fun id hid => ?_
    rw [kindAt_eq (lt_size_of_mem_descendants hd.linked hid), pure_bind]
    rfl
  rw [visitAttributes, descendants_eq hd.linked (root_lt_size hd.linked), pure_bind, hfilter,
    pure_bind,
    Draft.restyleAttributes]
  -- The attributes stay where they are in the store, which only grows.
  refine foldlM_eq (P := fun next => next.tree.Sound ∧ d.tree.size ≤ next.tree.size)
    (fun next hnext attr hattr => ?_) (fun next hnext attr _ next' hrun => ?_)
    ⟨hd, Nat.le_refl _⟩
  · refine visitAttribute_eq hnext.1 hplain (Nat.lt_of_lt_of_le ?_ hnext.2)
    exact lt_size_of_mem_descendants hd.linked (List.mem_of_mem_filter hattr)
  · have hmoves := Draft.moves_restyleAttribute hplain hnext.1 hrun
    exact ⟨hmoves.sound hnext.1, Nat.le_trans hnext.2 (hmoves.size_le hnext.1)⟩

/-- Visiting the references in a sound store is restyling them. -/
theorem visitReferences_eq (hd : d.tree.Sound) (hplain : s.generate.Plain) (scope : Scope)
    (name : Text) : visitReferences goOn s scope name d =
      of (d.restyleReferences goOn s scope name) := by
  have hreferences : ∀ id ∈ d.tree.referencesTo name, id < d.tree.size := fun id hid =>
    lt_size_of_mem_descendants hd.linked (List.mem_of_mem_filter hid)
  rw [visitReferences, Draft.restyleReferences, referencesTo_eq hd.linked, pure_bind,
    restyleReferences_eq hd hplain scope hreferences, pure_bind]
  exact foldlM_eq (P := fun _ => True) (fun d _ e _ => report_eq goOn d e)
    (fun _ _ _ _ _ _ => trivial) trivial

end Drafts

section Compiling

variable {t : Tree} {settings : Settings} {s : Stylist} {source : Text}

/-- The style import that is found is a node of the store. -/
theorem lt_size_of_styleImport? (ht : t.Linked) {sources : List Text} {found : StyleImport}
    (h : t.styleImport? sources = some found) : found.node < t.size := by
  obtain ⟨id, hid, hsome⟩ := List.exists_of_findSome?_eq_some h
  have hnode : found.node = id := by
    split at hsome
    · split at hsome
      · obtain ⟨name, -, rfl⟩ := Option.map_eq_some_iff.mp hsome
        rfl
      · exact absurd hsome (by simp)
    · exact absurd hsome (by simp)
  exact hnode ▸ ht.lt_size_of_mem hid

/-- The pass over the references, with the stripping of the import, never faults. -/
theorem secondPass_eq {d : Draft} (hd : d.Fitted source) (hplain : s.generate.Plain)
    (hs : s.generate.Tidy) {found : StyleImport} (hfound : found.node < d.tree.size) :
    secondPass settings s (some found) d = of (do
      let d ← d.restyleReferences settings.options.continueOnError s
        { allowAnywhere := settings.options.allowStyleProp, builder := some found.name } found.name
      return if settings.options.stripImport then { d with tree := d.tree.stripImport found }
        else d) := by
  refine bind_eq (visitReferences_eq hd.sound hplain ..) fun d' hd' => ?_
  split
  · have hmoves : Tree.Moves d.tree d'.tree := by
      rw [Draft.tree_of_reports hd']
      exact Stylist.moves_restyleReferences hplain _ _ hd.sound
    have hsettled : Draft.Settled source (.ok d') := hd' ▸ hd.restyleReferences hplain hs ..
    rw [stripImport_eq hsettled.sound hsettled.tree
      (Nat.lt_of_lt_of_le hfound (hmoves.size_le hd.sound))]
    rfl
  · rfl

/-- Every change to a module runs without a fault. -/
theorem restyle_eq (ht : t.Sound) (hfitted : t.Fitted source) (hplain : s.generate.Plain)
    (hs : s.generate.Tidy) : restyle settings s t = of (settings.restyle s t) := by
  rw [restyle, Settings.restyle_eq_bind, styleImport?_eq ht.linked, pure_bind]
  have hdraft : Draft.Fitted { tree := t } source := ⟨ht, hfitted, by simp⟩
  refine bind_eq ?_ fun d hd => ?_
  · rw [firstPass]
    split
    · rfl
    · exact visitAttributes_eq ht hplain
  · obtain ⟨hsettled, hmoves⟩ : d.Fitted source ∧ Tree.Moves t d.tree := by
      split at hd
      · obtain rfl := pure_eq_ok.mp hd
        exact ⟨hdraft, .refl⟩
      · have hsettled : Draft.Settled source (.ok d) := hd ▸ hdraft.restyleAttributes hplain hs
        exact ⟨hsettled, Draft.moves_foldlM hplain ht hd⟩
    cases hfound : t.styleImport? settings.options.importSources with
    | none => rfl
    | some found =>
      exact secondPass_eq hsettled hplain hs
        (Nat.lt_of_lt_of_le (lt_size_of_styleImport? ht.linked hfound) (hmoves.size_le ht))

/-- The output of a draft that fits the source is made without a fault. -/
theorem output_eq {d : Draft} (hd : d.Fitted source) (hsrc : source.Breaks) :
    (output d source : Checked ε _) = pure (d.output source) := by
  have hdiagnostics : ∀ e ∈ d.failures,
      (do return ⟨← failurePosition source e, e.message⟩ : Checked ε Diagnostic) =
        pure ⟨e.position source, e.message⟩ := by
    intro e he
    rw [failurePosition_eq hsrc (hd.failures e he), pure_bind]
  rw [output, print_eq hd.sound.linked hd.tree, pure_bind, mapM_eq hdiagnostics, pure_bind]
  rfl

/-- A well-formed source is read without a fault. -/
theorem ofSource_eq (hutf8 : Text.isUtf8 source = true) :
    ofSource source = of (Tree.ofSource source) := by
  rw [ofSource, Tree.ofSource, of_map, program_eq hutf8]
  cases Read.program source with
  | error e => rfl
  | ok body => exact ofBody_eq source body

/-- A well-formed snippet is grafted without a fault. -/
theorem graftSnippet_eq (hutf8 : Text.isUtf8 source = true) (ht : t.Linked) :
    graftSnippet t source = of (t.graftSnippet source) := by
  rw [graftSnippet, Tree.graftSnippet, of_map, snippet_eq hutf8]
  cases Read.snippet source with
  | error e => rfl
  | ok ast => exact graft_eq ast ht

/-- An error is turned into another one where what is needed for it is found. -/
theorem recast_eq {ε' α : Type} {f' : ε → Checked ε' ε'} {f : ε → ε'} {r : Except ε α}
    (hf : ∀ e, r = .error e → f' e = pure (f e)) : recast f' (of r) = of (r.mapError f) := by
  cases r with
  | ok a => rfl
  | error e =>
    show f' e >>= fail = _
    rw [hf e rfl, pure_bind]
    rfl

/-- Compiling a well-formed source never faults, with a styler as tidy as required. -/
theorem compileWith_eq (hutf8 : Text.isUtf8 source = true) (hplain : s.generate.Plain)
    (hs : s.generate.Tidy) :
    compileWith s settings source = of (JsxStyle.compileWith s settings source) := by
  have hsrc := Text.breaks_of_isUtf8 hutf8
  have hread : ∀ e, Tree.ofSource source = .error e →
      (do return .read (← positionAt source e.offset) e : Checked CompileError CompileError) =
        pure (.read (source.positionAt e.offset) e) := by
    intro e he
    obtain ⟨b, hmem, hb⟩ := (Read.grounded_program (map_eq_error.mp he)).opener
    have hascii : b.isAscii = true := by
      rcases (by simpa using hmem : b = _ ∨ b = _ ∨ b = _) with rfl | rfl | rfl <;> rfl
    rw [positionAt_eq hsrc (Text.isBoundary_of_isAscii hb hascii), pure_bind]
  rw [compileWith, ofSource_eq hutf8, recast_eq hread, JsxStyle.compileWith]
  cases htree : Tree.ofSource source with
  | error e => rfl
  | ok t =>
    have ht := Tree.sound_ofSource htree
    have hfitted := Tree.fitted_ofSource hutf8 htree
    have hsettled : Draft.Settled source (settings.restyle s t) :=
      Settings.settled_restyle ht hfitted hplain hs
    have hstyle : ∀ e, settings.restyle s t = .error e →
        (do return .style (← failurePosition source e) e : Checked CompileError CompileError) =
          pure (.style (e.position source) e) := by
      intro e he
      rw [he] at hsettled
      rw [failurePosition_eq hsrc hsettled, pure_bind]
    show recast _ (restyle settings s t) >>= _ = _
    rw [restyle_eq ht hfitted hplain hs, recast_eq hstyle]
    dsimp only
    cases hdraft : settings.restyle s t with
    | error e => rfl
    | ok d =>
      rw [hdraft] at hsettled
      exact output_eq hsettled hsrc

end Compiling

end Checked

/-- A snippet is added without a place. -/
theorem Tree.span_graftSnippet {t t' : Tree} (ht : t.Linked) {code : Text} {n : NodeId}
    (h : t.graftSnippet code = .ok (n, t')) {m : NodeId} {s : Span} (hs : t'.span m = some s) :
    t.span m = some s := by
  obtain ⟨ast, hast, hgraft⟩ := map_eq_ok.mp h
  have hg := graft_spec ast t ht
  rw [hgraft] at hg
  rcases Nat.lt_or_ge m t.size with hm | hm
  · exact (congrArg Node.span (hg.old m hm)).symm.trans hs
  · rcases Nat.lt_or_ge m t'.size with hlt | hge
    · obtain ⟨a, ha, b, hsub, hdepicts, -⟩ := hg.added m hm hlt
      obtain rfl := List.mem_singleton.mp ha
      have hspan := (Read.wellShaped_snippet hast).2.1 b hsub
      exact absurd ((hdepicts.span_eq.trans hspan).symm.trans hs) (by simp)
    · rw [span, node_of_size_le hge] at hs
      exact absurd hs (by simp)

/-- Reading a module, compiling it and reading a snippet make no access that is not allowed:
to check each of them makes no difference.  The places in the store that a module is read
into, and in every store that a compilation makes of it, lead forward within the module,
from between two characters to between two characters; a snippet adds no places. -/
theorem runs_without_fault (settings : Settings) {text : Text} (hutf8 : Text.isUtf8 text = true) :
    Checked.ofSource text = .of (Tree.ofSource text) ∧
    Checked.compile settings text = .of (compile settings text) ∧
    (∀ t, Tree.ofSource text = .ok t →
      ∀ t', t' = t ∨ Tree.Visits settings settings.stylist t t' →
        ∀ n s, t'.span n = some s → s.Fits text) ∧
    ∀ t : Tree, t.Linked →
      Checked.graftSnippet t text = .of (t.graftSnippet text) ∧
      ∀ n t', t.graftSnippet text = .ok (n, t') →
        ∀ m s, t'.span m = some s → t.span m = some s := by
  have hplain : settings.stylist.generate.Plain := fun _ _ hast => .inl ⟨_, hast⟩
  have htidy : settings.stylist.generate.Tidy := Generator.tidy_runtimeCall _
  refine ⟨Checked.ofSource_eq hutf8, Checked.compileWith_eq hutf8 hplain htidy, ?_, fun t ht =>
    ⟨Checked.graftSnippet_eq hutf8 ht, fun n t' h m s => Tree.span_graftSnippet ht h⟩⟩
  intro t ht t' hvisit
  have hfitted := Tree.fitted_ofSource hutf8 ht
  rcases hvisit with rfl | hvisit
  · exact hfitted.place
  · exact (hvisit.fitted (Tree.sound_ofSource ht) hfitted hplain htidy).place

/-- Letters of two bytes stand around what is cut, one of them behind a backslash. -/
theorem letters_run_without_fault :
    ∃ (text : Text) (out : Output),
      text = Text.ofString "import é from 'é';é=<p tw='é' u=\x7b'\\é'\x7d>é</p>" ∧
      Text.isUtf8 text = true ∧ Checked.compile {} text = pure out ∧
      out.printed.code = Text.ofString
        "import é from 'é';é=<p css=\x7btwStyles(\"é\")\x7d data-tw=\"é\" u=\x7b'\\é'\x7d>é</p>" := by
  obtain ⟨text, htext⟩ : ∃ text : Text, text = Text.ofString
      "import é from 'é';é=<p tw='é' u=\x7b'\\é'\x7d>é</p>" := ⟨_, rfl⟩
  have hutf8 : Text.isUtf8 text = true := by
    subst htext
    decide +kernel
  have hcompile : ((compile {} text).toOption.any fun out => out.printed.code = Text.ofString
      "import é from 'é';é=<p css=\x7btwStyles(\"é\")\x7d data-tw=\"é\" u=\x7b'\\é'\x7d>é</p>") =
        true := by
    subst htext
    decide +kernel
  obtain ⟨out, hout, hcode⟩ := exists_of_any hcompile
  have hchecked := (runs_without_fault {} hutf8).2.1
  rw [hout] at hchecked
  exact ⟨text, out, htext, hutf8, hchecked, of_decide_eq_true hcode⟩

end JsxStyle
