import Formals.Binding.Interned
import Formals.Proofs.Blocks
import Formals.Proofs.Checks
import Formals.Project.Job

/-!
# Interned names change nothing

A body is bound to the same with names as handles, whatever texts the interner holds before
(`Body.bindIn_eq`). A check with handles `Tracks` the one with texts: what was declared corresponds
(`Interned.State.Stands`), and the handles of what was checked keep their texts in all that the
interner becomes.
-/

namespace Formals

/-! ## Interners that grow -/

namespace Interner

/-- No text has two handles. -/
def Distinct (t : Interner) : Prop := t.texts.Nodup

/-- An interner, and one that it became. -/
def Before (t t' : Interner) : Prop := t.texts <+: t'.texts

variable {t t' : Interner} {handle other : Handle} {text : String}

/-- An interner is one that it became. -/
theorem Before.refl (t : Interner) : t.Before t := List.prefix_rfl

/-- What an interner became goes on to become others. -/
theorem Before.trans {t'' : Interner} (h : t.Before t') (h' : t'.Before t'') : t.Before t'' :=
  List.IsPrefix.trans h h'

/-- A handle keeps its text. -/
theorem Before.resolve? (h : t.Before t') (ht : t.resolve? handle = some text) :
    t'.resolve? handle = some text := by
  obtain ⟨more, hmore⟩ := h
  obtain ⟨hlt, -⟩ := List.getElem?_eq_some_iff.1 ht
  rw [Interner.resolve?, ← hmore, List.getElem?_append_left hlt]
  exact ht

/-- The text of a handle that has one. -/
theorem text_of_resolve? (h : t.resolve? handle = some text) : t.text handle = text := by
  rw [Interner.text, h]
  rfl

/-- A text has one handle, so that handles may be compared instead of texts. -/
theorem Distinct.handle_unique (hd : t.Distinct) (h : t.resolve? handle = some text)
    (h' : t.resolve? other = some text) : handle = other :=
  (List.getElem?_inj (List.getElem?_eq_some_iff.1 h).1 hd).1 (h.trans h'.symm)

/-- A text that is interned has a handle from then on, and the others keep theirs. -/
theorem Distinct.intern (hd : t.Distinct) (text : String) : t.Before (t.intern text).2 ∧
    (t.intern text).2.Distinct ∧ (t.intern text).2.resolve? (t.intern text).1 = some text := by
  unfold Interner.intern get?
  by_cases hmem : text ∈ t.texts
  · rw [if_pos hmem]
    exact ⟨.refl t, hd, List.getElem?_idxOf hmem⟩
  · rw [if_neg hmem]
    refine ⟨List.prefix_append .., ?_, by simp [Interner.resolve?]⟩
    exact List.nodup_append.2 ⟨hd, List.nodup_singleton _, fun a ha b hb heq =>
      hmem (List.mem_singleton.1 hb ▸ heq ▸ ha)⟩

end Interner

namespace Interned

/-! ## Checks that correspond -/

/-- The handles that are declared stand for the names that are declared. -/
structure State.Stands (s : State) (table : NameTable) : Prop where
  distinct : s.interner.Distinct
  declared : List.Forall₂ (fun d e => s.interner.resolve? d.1 = some e.1) s.declared table.declared

/-- A check with handles ends as one with texts: well with what is related, or with the same
error. -/
inductive Ends {α β : Type} (R : Interner → α → β → Prop) (s : State) :
    EStateM.Result BindError State α → Except BindError (β × NameTable) → Prop
  | ok {a : α} {b : β} {s' : State} {table' : NameTable} : s.interner.Before s'.interner →
    s'.Stands table' → R s'.interner a b → Ends R s (.ok a s') (.ok (b, table'))
  | error {e : BindError} {s' : State} : s.interner.Before s'.interner → s'.interner.Distinct →
    Ends R s (.error e s') (.error e)

/-- A check with handles ends as one with texts, from any interner that a given one became. -/
def Tracks {α β : Type} (t : Interner) (R : Interner → α → β → Prop) (x : Checker α)
    (y : Formals.Checker β) : Prop :=
  ∀ s table, t.Before s.interner → s.Stands table → Ends R s (x s) (y table)

namespace Tracks

variable {α β γ δ : Type} {t : Interner} {R : Interner → α → β → Prop}
  {R' : Interner → γ → δ → Prop} {x : Checker α} {y : Formals.Checker β} {a : α} {b : β}
  {e : BindError}

/-- A check with nothing left to do tracks if its results are related from then on. -/
theorem pure (h : ∀ t', t.Before t' → R t' a b) : Tracks t R (pure a) (pure b) :=
  fun s _ ht hs => .ok (.refl _) hs (h s.interner ht)

/-- A check that fails tracks one that fails with the same error. -/
theorem throw : Tracks t R (throw e) (throw e) := fun _ _ _ hs => .error (.refl _) hs.distinct

/-- Two checks in a row track two others. The second one has the interner that the first one leaves.
-/
theorem bind {f : α → Checker γ} {g : β → Formals.Checker δ} (h : Tracks t R x y)
    (h' : ∀ t' a b, t.Before t' → R t' a b → Tracks t' R' (f a) (g b)) :
    Tracks t R' (x >>= f) (y >>= g) := by
  intro s table ht hs
  have hx := h s table ht hs
  rw [bind_apply]
  simp only [Bind.bind, StateT.bind, Except.bind]
  generalize x s = r at hx ⊢
  generalize y table = outcome at hx ⊢
  cases hx with
  | error hbefore hd => exact .error hbefore hd
  | @ok a b s' table' hbefore hs' hR =>
    have hf := h' s'.interner a b (ht.trans hbefore) hR s' table' (.refl _) hs'
    simp only
    generalize f a s' = r at hf ⊢
    generalize g b table' = outcome at hf ⊢
    cases hf with
    | ok hbefore' hs'' hR' => exact .ok (hbefore.trans hbefore') hs'' hR'
    | error hbefore' hd => exact .error (hbefore.trans hbefore') hd

/-- What both refuse under a condition. -/
theorem refuse {c : Bool} {f : PUnit → Checker γ} {g : PUnit → Formals.Checker δ}
    (h : Tracks t R' (f ⟨⟩) (g ⟨⟩)) : Tracks t R'
      (if c = true then MonadExcept.throw e >>= f else f ⟨⟩)
      (if c = true then MonadExcept.throw e >>= g else g ⟨⟩) := by
  cases c with
  | true => exact fun _ _ _ hs => .error (.refl _) hs.distinct
  | false => exact h

end Tracks

/-! ## Names -/

/-- A handle has a text, now and later. -/
def Names (t : Interner) (name : Handle) (text : String) : Prop :=
  ∀ t', t.Before t' → t'.resolve? name = some text

/-- The text of a handle is the one that it stands for. -/
theorem Names.text {t t' : Interner} {name : Handle} {text : String} (h : Names t name text)
    (ht : t.Before t') : t'.text name = text := Interner.text_of_resolve? (h t' ht)

/-- Handles stand for the texts that they stood for. -/
theorem State.Stands.of_before {s : State} {table : NameTable} {t : Interner} (hs : s.Stands table)
    (hbefore : s.interner.Before t) (hd : t.Distinct) :
    State.Stands { s with interner := t } table where
  distinct := hd
  declared := hs.declared.imp fun _ _ h => hbefore.resolve? h

/-- A handle is declared exactly if its text is. -/
theorem State.Stands.declares {s : State} {table : NameTable} (hs : s.Stands table) {name : Handle}
    {text : String} (h : s.interner.resolve? name = some text) :
    s.declares name = table.contains text := by
  rw [Bool.eq_iff_iff, NameTable.contains_iff, State.declares, List.any_eq_true, NameTable.names]
  have hsame : ∀ {ds es : List _}, List.Forall₂ (fun (d : Handle × Span) (e : String × Span) =>
      s.interner.resolve? d.1 = some e.1) ds es →
      ((∃ d ∈ ds, (d.1 == name) = true) ↔ text ∈ es.map (·.1)) := by
    intro ds es hall
    induction hall with
    | nil => simp
    | @cons d e ds es hfirst _ ih =>
      have hhead : (d.1 == name) = true ↔ text = e.1 := by
        rw [beq_iff_eq]
        constructor
        · rintro rfl
          exact Option.some.inj (h.symm.trans hfirst)
        · rintro rfl
          exact hs.distinct.handle_unique hfirst h
      rw [List.exists_mem_cons_iff, hhead, ih, List.map_cons, List.mem_cons]
  exact hsame hs.declared

section

variable {t : Interner} {text : String} {span : Span}

/-- Interning a text, where the check with texts does nothing. -/
theorem tracks_intern : Tracks t (fun t' name (_ : Unit) => Names t' name text) (intern text)
    (return ()) := by
  intro s table _ hs
  obtain ⟨hbefore, hd, hname⟩ := hs.distinct.intern text
  exact .ok hbefore (hs.of_before hbefore hd) fun t' ht => ht.resolve? hname

/-- Declaring a name. -/
theorem tracks_declareName : Tracks t (fun t' name (_ : Unit) => Names t' name text)
    (declareName text span) (Formals.declareName text span) := by
  unfold declareName Formals.declareName
  refine .refuse ?_
  intro s table _ hs
  obtain ⟨hbefore, hd, hname⟩ := hs.distinct.intern text
  have hs' := hs.of_before hbefore hd
  have hnames : Names (s.interner.intern text).2 (s.interner.intern text).1 text :=
    fun t' ht => ht.resolve? hname
  have hdeclares := hs'.declares hname
  rw [NameTable.contains] at hdeclares
  have hx : (intern text) s = .ok (s.interner.intern text).1
    { s with interner := (s.interner.intern text).2 } := rfl
  beta_reduce
  rw [bind_apply, hx]
  simp only [bind_apply, get_apply, hdeclares]
  rw [show ∀ f : NameTable → Formals.Checker Unit, (get >>= f) table = f table table from
    fun _ => rfl, NameTable.declare]
  cases table.get? text with
  | none => exact .ok hbefore ⟨hd, List.rel_append hs'.declared (.cons hname .nil)⟩ hnames
  | some earlier =>
    cases isThrowawayName text with
    | true => exact .ok hbefore hs' hnames
    | false => exact .error hbefore hd

/-- What has handles resolves to what has texts, now and later. -/
def Resolves {α β : Type} (resolve : Interner → α → β) (t : Interner) (a : α) (b : β) : Prop :=
  ∀ t', t.Before t' → resolve t' a = b

/-- Declaring the name of a parameter that may do without. -/
theorem tracks_declareName? (text : Option String) :
    Tracks t (fun t' name (_ : Unit) => Resolves (fun t => Option.map t.text) t' name text)
      (declareName? text span) (Formals.declareName? text span) := by
  cases text with
  | none => exact .pure fun _ _ _ _ => rfl
  | some text =>
    have hmap : declareName? (some text) span = declareName text span >>= fun name =>
        Pure.pure (some name) := (bind_pure_comp ..).symm
    have hpure : Formals.declareName? (some text) span = Formals.declareName text span >>= fun u =>
        Pure.pure u := (bind_pure _).symm
    rw [hmap, hpure]
    exact tracks_declareName.bind fun t' name _ _ hname => .pure fun t'' ht t₃ ht' =>
      congrArg some (hname.text (ht.trans ht'))

end

/-! ## Parameters -/

variable {t : Interner} {parent span : Span} {inGroup : Bool}

/-- A parameter with handles stands in the same part of the list as the one with texts. -/
theorem Param.part_resolve (t : Interner) (p : Param) : (p.resolve t).part = p.part := by
  cases p <;> rfl

/-- A parameter with handles has the same span as the one with texts. -/
theorem Param.span_resolve (t : Interner) (p : Param) : (p.resolve t).span = p.span := by
  cases p <;> rfl

/-- A parameter that declares a name. -/
theorem tracks_named {text : String} (p : Handle → Param) {q : Formals.Param}
    (h : ∀ t name, t.text name = text → (p name).resolve t = q) :
    Tracks t (Resolves Param.resolve) (do return p (← declareName text span))
      (do Formals.declareName text span; return q) :=
  tracks_declareName.bind fun _ _ _ _ hname => .pure fun _ ht _ ht' =>
    h _ _ (hname.text (ht.trans ht'))

/-- A parameter that may declare a name. -/
theorem tracks_named? {text : Option String} (p : Option Handle → Param) {q : Formals.Param}
    (h : ∀ (t : Interner) name, name.map t.text = text → (p name).resolve t = q) :
    Tracks t (Resolves Param.resolve) (do return p (← declareName? text span))
      (do Formals.declareName? text span; return q) :=
  (tracks_declareName? text).bind fun _ _ _ _ hname => .pure fun _ ht _ ht' =>
    h _ _ (hname _ (ht.trans ht'))

/-- A rest is checked by declaring its name, if it has one. -/
theorem tracks_rest (text : Option String) : Tracks t (Resolves Param.resolve)
    (do return .rest (← declareName? text span) span)
    (do Formals.declareName? text span; return .rest text span) :=
  tracks_named? (.rest · span) fun t name h => by rw [Param.resolve, h]

/-- A keyword rest is checked by declaring its name, if it has one. -/
theorem tracks_keywordRest (text : Option String) : Tracks t (Resolves Param.resolve)
    (do return .keywordRest (← declareName? text span) span)
    (do Formals.declareName? text span; return .keywordRest text span) :=
  tracks_named? (.keywordRest · span) fun t name h => by rw [Param.resolve, h]

/-- A required parameter is checked by declaring its name. -/
theorem tracks_required (text : String) : Tracks t (Resolves Param.resolve)
    (do return .required (← declareName text span) span)
    (do Formals.declareName text span; return .required text span) :=
  tracks_named (.required · span) fun t name h => by rw [Param.resolve, h]

/-- The check of a marker with handles tracks the one with texts, whichever kind of parameter the
marker is of. -/
theorem tracks_checkMarker (text : String) : Tracks t (Resolves Param.resolve)
    (checkMarker text parent inGroup) (Formals.checkMarker text parent inGroup) := by
  unfold checkMarker
  split <;> rename_i h <;> simp only [Formals.checkMarker, h]
  · exact .refuse (tracks_keywordRest _)
  · exact tracks_rest _
  · exact tracks_required text

/-- The method that writes an attribute. -/
theorem tracks_internWriter {writer : String} :
    Tracks t (fun t' name (_ : Unit) => Names t' name writer) (internWriter writer span)
      (liftM (checkWriter writer span)) := by
  unfold internWriter checkWriter
  cases isWriterName writer with
  | true => exact tracks_intern
  | false => exact .throw

/-- The phase moves on alike. -/
theorem tracks_pass (phase : Phase) {p : Param} {q : Formals.Param}
    (h : Resolves Param.resolve t p q) :
    Tracks t (fun _ next next' => next = next') (pass phase p) (liftM (phase.pass q)) := by
  have hq := h t (.refl t)
  rw [pass, Phase.pass, ← hq, Param.part_resolve, Param.span_resolve]
  cases phase.next p.part with
  | ok next => exact .pure fun _ _ => rfl
  | error m => exact .throw

mutual
/-- The check of a node. -/
theorem tracks_check (parent : Span) (inGroup : Bool) : ∀ (node : ParamNode) (t : Interner),
    Tracks t (Resolves Param.resolve) (check parent inGroup node) (node.check parent inGroup)
  | .marker text, t => tracks_checkMarker text
  | .required name span, t => tracks_required name
  | .optional name default span, t =>
    tracks_named (.optional · default span) fun t name h => by rw [Param.resolve, h]
  | .rest name span, t => tracks_rest name
  | .keyword name default span, t => by
    rw [check, ParamNode.check]
    exact .refuse (tracks_named (.keyword · default span) fun t name h => by
      rw [Param.resolve, h])
  | .keywordRest name span, t => by
    rw [check, ParamNode.check]
    exact .refuse (tracks_keywordRest name)
  | .group children span, t => by
    rw [check, ParamNode.check]
    exact .refuse ((tracks_checkLevel span true .leading children t).bind
      fun t' ps qs ht h => .pure fun t'' ht' t₃ ht'' => by
        rw [Param.resolve, h t₃ (ht'.trans ht'')])
  | .attr receiver writer span, t => tracks_internWriter.bind fun t' name _ ht h =>
      .pure fun t'' ht' t₃ ht'' => by rw [Param.resolve, h.text (ht'.trans ht'')]
  | .malformed raw, t => .throw

/-- The check of a level. -/
theorem tracks_checkLevel (parent : Span) (inGroup : Bool) (phase : Phase) :
    ∀ (nodes : List ParamNode) (t : Interner), Tracks t (Resolves Param.resolveAll)
      (checkLevel parent inGroup phase nodes) (ParamNode.checkLevel parent inGroup phase nodes)
  | [], t => .pure fun _ _ _ _ => rfl
  | node :: others, t => (tracks_check parent inGroup node t).bind fun t₁ p q ht₁ hp =>
      (tracks_pass phase hp).bind fun t₂ next next' ht₂ hnext => by
        subst hnext
        exact (tracks_checkLevel parent inGroup next others t₂).bind fun t₃ ps qs ht₃ hps =>
          .pure fun t₄ ht₄ t₅ ht₅ => by
            rw [Param.resolveAll, hp t₅ (ht₂.trans (ht₃.trans (ht₄.trans ht₅))),
              hps t₅ (ht₄.trans ht₅)]
end

/-! ## Targets -/

section

variable {α β γ δ : Type} {R : Interner → α → β → Prop} {R' : Interner → γ → δ → Prop}
  {x : Checker α} {y : Except BindError β}

/-- A check with handles tracks steps that need no table of names, one after the other. -/
theorem Tracks.liftBind {f : α → Checker γ} {g : β → Except BindError δ}
    (h : Tracks t R x (liftM y))
    (h' : ∀ t' a b, t.Before t' → R t' a b → Tracks t' R' (f a) (liftM (g b))) :
    Tracks t R' (x >>= f) (liftM (y >>= g)) := by
  rw [liftM_bind]
  exact h.bind h'

/-- What both refuse under a condition is refused in the same way by a check that needs no table of
names. -/
theorem Tracks.liftRefuse {c : Bool} {e : BindError} {f : PUnit → Checker γ}
    {g : PUnit → Except BindError δ} (h : Tracks t R' (f ⟨⟩) (liftM (g ⟨⟩))) : Tracks t R'
      (if c = true then MonadExcept.throw e >>= f else f ⟨⟩)
      (liftM (if c = true then MonadExcept.throw e >>= g else g ⟨⟩)) := by
  cases c with
  | true => exact fun _ _ _ hs => .error (.refl _) hs.distinct
  | false => exact h

end

/-- A variable is checked and then interned, without a table of names. -/
theorem tracks_checkVariable (kind : VariableKind) (name : String) :
    Tracks t (Resolves Target.resolve) (checkVariable kind name span)
      (liftM (Formals.checkVariable kind name span)) := by
  unfold checkVariable Formals.checkVariable
  cases kind.admits name with
  | true =>
    refine tracks_intern.bind fun t' handle _ ht h => .pure fun t'' ht' t₃ ht'' => ?_
    rw [Target.resolve, h.text (ht'.trans ht'')]
  | false => exact .throw

/-- An attribute is checked and its message interned. -/
theorem tracks_checkAttribute (receiver : Expr) (writer : String) :
    Tracks t (Resolves Target.resolve) (checkAttribute receiver writer span)
      (liftM (Formals.checkAttribute receiver writer span)) :=
  tracks_internWriter.liftBind fun t' handle _ ht h => .pure fun t'' ht' t₃ ht'' => by
    rw [Target.resolve, h.text (ht'.trans ht'')]

/-- The target behind a splat is checked as a variable or an attribute is; all others are refused.
-/
theorem tracks_checkSplatTarget : ∀ target : TargetNode,
    Tracks t (Resolves Target.resolve) (checkSplatTarget span target)
      (liftM (Formals.checkSplatTarget span target))
  | .var kind name _ => tracks_checkVariable kind name
  | .attr receiver writer _ => tracks_checkAttribute receiver writer
  | .malformed _ | .nested .. | .splat .. => .throw

mutual
/-- The check of a target. -/
theorem tracks_checkTarget (parent : Span) : ∀ (node : TargetNode) (t : Interner),
    Tracks t (Resolves Target.resolve) (checkTarget parent node) (liftM (node.check parent))
  | .var kind name span, t => tracks_checkVariable kind name
  | .nested children span, t => by
    rw [checkTarget, TargetNode.check]
    exact .liftRefuse ((tracks_checkTargetLevel span false children t).liftBind
      fun t' xs ys ht h => .pure fun t'' ht' t₃ ht'' => by
        rw [Target.resolve, h t₃ (ht'.trans ht'')])
  | .splat none span, t => .pure fun _ _ _ _ => rfl
  | .splat (some target) span, t => (tracks_checkSplatTarget target).liftBind
      fun t' x y ht h => .pure fun t'' ht' t₃ ht'' => by
        rw [Target.resolve, h t₃ (ht'.trans ht'')]
  | .attr receiver writer span, t => tracks_checkAttribute receiver writer
  | .malformed raw, t => .throw

/-- The check of the targets of a level. -/
theorem tracks_checkTargetLevel (parent : Span) (seen : Bool) :
    ∀ (nodes : List TargetNode) (t : Interner), Tracks t (Resolves Target.resolveAll)
      (checkTargetLevel parent seen nodes) (liftM (TargetNode.checkLevel parent seen nodes))
  | [], t => .pure fun _ _ _ _ => rfl
  | node :: others, t => by
    have hrest : Tracks t (Resolves Target.resolveAll)
        (do let target ← checkTarget parent node
            return target :: (← checkTargetLevel parent (seen || node.isSplat) others))
        (liftM do
            let target ← node.check parent
            return target :: (← TargetNode.checkLevel parent (seen || node.isSplat) others)) :=
      (tracks_checkTarget parent node t).liftBind fun t₁ x y ht₁ hx =>
        (tracks_checkTargetLevel parent (seen || node.isSplat) others t₁).liftBind
          fun t₂ xs ys ht₂ hxs => .pure fun t₃ ht₃ t₄ ht₄ => by
            rw [Target.resolveAll, hx t₄ (ht₂.trans (ht₃.trans ht₄)), hxs t₄ (ht₃.trans ht₄)]
    cases node with
    | splat target span =>
      cases seen with
      | true => exact .throw
      | false => exact hrest
    | _ => exact hrest
end

/-! ## Bodies -/

/-- Binding with handles gives what binding with texts gives, and only adds to the interner. -/
theorem Tracks.andBind {α β : Type} {resolve : Interner → α → β} {t : Interner} {x : Checker α}
    {y : Formals.Checker β} (h : Tracks t (Resolves resolve) x y) (hd : t.Distinct)
    (bind : β → Except BindError Stream) :
    (Interned.andBind x (fun t' a => bind (resolve t' a)) t).1 = y.run' {} >>= bind ∧
      t.Before (Interned.andBind x (fun t' a => bind (resolve t' a)) t).2 ∧
      (Interned.andBind x (fun t' a => bind (resolve t' a)) t).2.Distinct := by
  have hx := h { interner := t } {} (.refl t) ⟨hd, .nil⟩
  rw [Interned.andBind, show y.run' {} = Prod.fst <$> y {} from rfl]
  generalize x { interner := t } = r at hx ⊢
  generalize y {} = outcome at hx ⊢
  cases hx with
  | ok hbefore hs hR => exact ⟨congrArg bind (hR _ (.refl _)), hbefore, hs.distinct⟩
  | error hbefore hd => exact ⟨rfl, hbefore, hd⟩

end Interned

/-- A body is bound to the same whatever the interner holds, which only grows. -/
theorem Body.bindIn_eq {t : Interner} (hd : t.Distinct) (localOnly : Bool) (body : Body) :
    (body.bindIn localOnly t).1 = body.compile localOnly ∧
      t.Before (body.bindIn localOnly t).2 ∧ (body.bindIn localOnly t).2.Distinct := by
  cases body with
  | callable name kind params span =>
    have h : Interned.Tracks t (Interned.Resolves Interned.Param.resolveAll)
        (Interned.checkParams? params) (params.elim (pure []) fun list =>
          ParamNode.checkLevel list.span false .leading list.nodes) := by
      cases params with
      | none => exact .pure fun _ _ _ _ => rfl
      | some list => exact Interned.tracks_checkLevel list.span false .leading list.nodes t
    have hbind := h.andBind hd fun ps => bindParams ps localOnly
    cases params <;> exact hbind
  | assignment name targets span =>
    have h := Interned.tracks_checkTargetLevel targets.span false targets.nodes t
    have hlift : (liftM targets.check : Checker (List Target)).run' {} = targets.check := by
      rw [TargetList.check]
      cases TargetNode.checkLevel targets.span false targets.nodes <;> rfl
    rw [compile, TargetList.compile, ← hlift]
    exact h.andBind hd bindTargets

end Formals
