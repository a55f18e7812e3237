import Formals.Binding.Notation
import Formals.Machine.Notation
import Formals.Proofs.Inspecting
import Formals.Proofs.RoundTrip
import Formals.Tree.Shorthand

/-!
# Notations

Instructions, checked parameters and checked targets have a notation in JSON. Nothing is lost in it:
what is written of a stream, of parameters or of targets is read as these (`Stream.ofJson?_toJson`,
`Param.listOfJson?_listToJson`, `Target.listOfJson?_listToJson`).

Values and trees have one that is only read. Values are built on a heap that has their cells
(`Builder.sound_valuesOf`), as what is proved of calls asks of their arguments, and no node of a
tree is malformed (`holds_ofShort?`).
-/

namespace Formals

/-! ## Instructions -/

/-- A span is read back from its two numbers. -/
theorem Span.ofPair?_toPair (s : Span) : ofPair? s.toPair = some s := by
  simp [toPair, ofPair?, Json.word?_toNat]

/-- Integers of 64 bits are written as texts, and read back from them. -/
theorem Json.decimal64?_toString (n : Int64) : (str (toString n)).decimal64? = some n := by
  have hread : (toString n).toInt? = some n.toInt := Int.toInt?_repr n.toInt
  simp [decimal64?, str?, hread]

/-- No two operations have one mnemonic. -/
theorem Opcode.ofMnemonic?_mnemonic (code : Opcode) : ofMnemonic? code.mnemonic = some code := by
  have hall : ∀ code ∈ all, ofMnemonic? code.mnemonic = some code := by decide +kernel
  exact hall code (by cases code <;> decide)

/-- An operation is read back from its opcode and its operands. -/
theorem Op.ofOperands?_operands (op : Op) : ofOperands? op.opcode op.operands = some op := by
  cases op <;>
    simp [ofOperands?, opcode, operands, Json.str?, Json.bool?, Json.word?_toNat,
      Json.decimal64?_toString]

/-- An operation is read back as it was written. -/
theorem Op.ofJson?_toJson (op : Op) : ofJson? op.toJson = some op := by
  simp [ofJson?, toJson, Json.str?, Opcode.ofMnemonic?_mnemonic, ofOperands?_operands]

/-- What an instruction is read from. -/
theorem Instruction.ofJson?_obj {members : List (String × Json)} {a b : Json} {op : Op}
    {span : Span}
    (hop : (Json.obj members).get? "op" = some a) (hspan : (Json.obj members).get? "at" = some b)
    (ha : Op.ofJson? a = some op) (hb : Span.ofPair? b = some span) :
    ofJson? (.obj members) = some ⟨op, span⟩ := by
  rw [ofJson?, hop, hspan]
  · simp only [Option.bind_eq_bind, Option.bind_some, ha, hb, Option.pure_def]
  · intro items heq
    cases heq

/-- An instruction is read back as it was written. -/
theorem Instruction.ofJson?_toJson (i : Instruction) : ofJson? i.toJson = some i :=
  ofJson?_obj rfl rfl i.op.ofJson?_toJson i.span.ofPair?_toPair

/-- **Streams.** A stream is read back as it was written. -/
theorem Stream.ofJson?_toJson (code : Stream) : ofJson? code.toJson = some code := by
  have hread : Instruction.ofJson? ∘ Instruction.toJson = pure :=
    funext Instruction.ofJson?_toJson
  rw [ofJson?, toJson, Json.list?, List.mapM_map, hread]
  exact List.mapM_pure.trans (congrArg some (List.map_id code))

/-! ## Checked parameters and targets -/

namespace Json

/-- The span of a checked node is read back. -/
theorem specSpan?_of_get? {j : Json} {s : Span} (h : j.get? "span" = some s.toPair) :
    j.specSpan? = some s := by
  rw [specSpan?, h]
  exact s.ofPair?_toPair

/-- Children are read back if each of them is, with fuel that exceeds the depth of all of them. -/
theorem list?_map_eq_some {α : Type} {read : Nat → Json → Option α} {write : α → Json}
    {nodes : List α} {fuel : Nat} (hfuel : depthItems (nodes.map write) < fuel)
    (h : ∀ node ∈ nodes, ∀ n, (write node).depth ≤ n → read (n + 1) (write node) = some node) :
    (arr (nodes.map write)).list? (read fuel) = some nodes := by
  obtain ⟨n, rfl⟩ : ∃ n, fuel = n + 1 := ⟨fuel - 1, by omega⟩
  have hread : ∀ node ∈ nodes, read (n + 1) (write node) = some node := fun node hnode =>
    h node hnode n (depthItems_le_iff.1 (Nat.le_of_lt_succ hfuel) _ (List.mem_map_of_mem hnode))
  clear hfuel h
  rw [list?]
  induction nodes with
  | nil => rfl
  | cons node others ih =>
    rw [List.map_cons, List.mapM_cons, hread node List.mem_cons_self,
      ih fun other hother => hread other (.tail _ hother)]
    rfl

end Json

/-- An expression is read back as it was written. -/
theorem Expr.ofJson?_toJson (e : Expr) : ofJson? e.toJson = some e :=
  read_toJson .byName e _ (Nat.le_refl _)

namespace Param

open Json

/-- Parameters are written one by one. -/
theorem listToJson_eq_map (ps : List Param) : listToJson ps = ps.map toJson := by
  induction ps with
  | nil => rfl
  | cons p others ih => rw [listToJson, ih, List.map_cons]

/-- The span of a parameter is read back, whatever its kind. -/
theorem specSpan?_toJson (p : Param) : p.toJson.specSpan? = some p.span := by
  cases p <;> exact specSpan?_of_get? rfl

/-- A checked parameter is read back as it was written, with as much fuel as its document is
deep. -/
theorem read_toJson {p : Param} {fuel : Nat} (h : p.toJson.depth ≤ fuel) :
    read (fuel + 1) p.toJson = some p := by
  -- in each case what is left of the reader, its fields filled in, is a computation
  induction p generalizing fuel with
  | required name span =>
    rw [read, specSpan?_toJson]
    rfl
  | optional name default span =>
    rw [read, specSpan?_toJson]
    change (do return optional name (← Expr.ofJson? default.toJson) span : Option Param) = _
    rw [default.ofJson?_toJson]
    rfl
  | rest name span =>
    rw [read, specSpan?_toJson]
    change (do return rest (← (ofString? name).nullable? str?) span : Option Param) = _
    rw [nullable?_ofString?]
    rfl
  | keyword name default span =>
    rw [read, specSpan?_toJson]
    change (do
      return keyword name (← ((default.map Expr.toJson).getD .null).nullable? Expr.ofJson?) span :
        Option Param) = _
    rw [nullable?_getD_null Expr.toJson_ne_null fun e _ => e.ofJson?_toJson]
    rfl
  | keywordRest name span =>
    rw [read, specSpan?_toJson]
    change (do return keywordRest (← (ofString? name).nullable? str?) span : Option Param) = _
    rw [nullable?_ofString?]
    rfl
  | group children span ih =>
    have hchildren : depthItems (children.map toJson) < fuel := by
      simp [toJson, written, depth, depthMembers, listToJson_eq_map] at h
      omega
    rw [read, specSpan?_toJson]
    change (do
      return group (← (arr (listToJson children)).list? (read fuel)) span : Option Param) = _
    rw [listToJson_eq_map, list?_map_eq_some hchildren fun child hchild _ => ih child hchild]
    rfl
  | attr receiver writer span =>
    rw [read, specSpan?_toJson]
    change (do return attr (← Expr.ofJson? receiver.toJson) writer span : Option Param) = _
    rw [receiver.ofJson?_toJson]
    rfl

/-- **Parameters.** Checked parameters are read back as they were written. -/
theorem listOfJson?_listToJson (ps : List Param) :
    listOfJson? (.arr (listToJson ps)) = some ps := by
  rw [listOfJson?, listToJson_eq_map]
  exact list?_map_eq_some (Nat.lt_succ_of_le (by rw [depth]; omega)) fun _ _ _ => read_toJson

end Param

namespace Target

open Json

/-- Targets are written one by one. -/
theorem listToJson_eq_map (ts : List Target) : listToJson ts = ts.map toJson := by
  induction ts with
  | nil => rfl
  | cons t others ih => rw [listToJson, ih, List.map_cons]

/-- The span of a target is read back, whatever its kind. -/
theorem specSpan?_toJson (t : Target) : t.toJson.specSpan? = some t.span := by
  cases t with
  | var kind => cases kind <;> exact specSpan?_of_get? rfl
  | rest target => cases target <;> exact specSpan?_of_get? rfl
  | _ => exact specSpan?_of_get? rfl

/-- A target is never written as `null`, which stands for a target that is missing. -/
theorem toJson_ne_null (t : Target) : t.toJson ≠ .null := by
  cases t with
  | var kind => cases kind <;> exact nofun
  | rest target => cases target <;> exact nofun
  | _ => exact nofun

/-- A checked target is read back as it was written, with as much fuel as its document is deep. -/
theorem read_toJson {t : Target} {fuel : Nat} (h : t.toJson.depth ≤ fuel) :
    read (fuel + 1) t.toJson = some t := by
  induction t generalizing fuel with
  | var kind name span =>
    rw [read, specSpan?_toJson]
    cases kind <;> rfl
  | nested children span ih =>
    have hchildren : depthItems (children.map toJson) < fuel := by
      simp [toJson, written, depth, depthMembers, listToJson_eq_map] at h
      omega
    rw [read, specSpan?_toJson]
    change (do return nested (← (arr (listToJson children)).list? (read fuel)) span :
      Option Target) = _
    rw [listToJson_eq_map, list?_map_eq_some hchildren fun child hchild _ => ih child hchild]
    rfl
  | rest target span ih =>
    rw [read, specSpan?_toJson]
    cases target with
    | none => rfl
    | some target =>
      have htarget : target.toJson.depth < fuel := by
        simp [toJson, written, depth, depthMembers] at h
        omega
      obtain ⟨fuel, rfl⟩ : ∃ n, fuel = n + 1 := ⟨fuel - 1, by omega⟩
      change (do return rest (← target.toJson.nullable? (read (fuel + 1))) span : Option Target) = _
      rw [nullable?_of_ne _ target.toJson_ne_null, ih target rfl (by omega)]
      rfl
  | attr receiver writer span =>
    rw [read, specSpan?_toJson]
    change (do return attr (← Expr.ofJson? receiver.toJson) writer span : Option Target) = _
    rw [receiver.ofJson?_toJson]
    rfl

/-- **Targets.** Checked targets are read back as they were written. -/
theorem listOfJson?_listToJson (ts : List Target) :
    listOfJson? (.arr (listToJson ts)) = some ts := by
  rw [listOfJson?, listToJson_eq_map]
  exact list?_map_eq_some (Nat.lt_succ_of_le (by rw [depth]; omega)) fun _ _ _ => read_toJson

end Target

/-! ## Values -/

namespace Builder

variable {strict : Prop} {known : NamedValues} {α β : Type}

/-- On a proper heap with the cells of the values that have names, a builder leaves a heap that
follows, and what it builds has a property there. -/
def Sound (strict : Prop) (known : NamedValues) (b : Builder α) (P : Heap → α → Prop) : Prop :=
  ∀ ⦃h h' : Heap⦄ ⦃a : α⦄, h.Proper strict → (∀ e ∈ known, h.Has e.2) → b h = .ok (a, h') →
    h.Follows strict h' ∧ P h' a

/-- What needs no heap leaves the heap as it is. -/
theorem sound_pure {P : Heap → α → Prop} {a : α} (h : ∀ heap, P heap a) :
    Sound strict known (pure a) P := by
  intro heap heap' b hs _ hrun
  cases hrun
  exact ⟨.refl hs, h heap⟩

/-- What refuses has built nothing. -/
theorem sound_throw {P : Heap → α → Prop} (e : NotationError) : Sound strict known (throw e) P := by
  intro heap heap' a _ _ hrun
  cases hrun

/-- What has to be there is sound, since the heap is left as it is. -/
theorem sound_ofOption (a : Option α) : Sound strict known (ofOption a) fun _ _ => True := by
  cases a with
  | none => exact sound_throw _
  | some a => exact sound_pure fun _ => trivial

/-- What is built in two steps: the second one finds what the first one has built. -/
theorem sound_bind {P : Heap → α → Prop} {Q : Heap → β → Prop} {b : Builder α} {f : α → Builder β}
    (hb : Sound strict known b P)
    (hf : ∀ a ⦃h h' : Heap⦄ ⦃c : β⦄, P h a → h.Proper strict → (∀ e ∈ known, h.Has e.2) →
      f a h = .ok (c, h') → h.Follows strict h' ∧ Q h' c) : Sound strict known (b >>= f) Q := by
  intro h h' c hs hknown hrun
  obtain ⟨⟨a, middle⟩, ha, hc⟩ := ok_of_bind hrun
  obtain ⟨hfollows, hbuilt⟩ := hb hs hknown ha
  obtain ⟨hfollows', hresult⟩ :=
    hf a hbuilt hfollows.proper (fun e he => hfollows.has _ (hknown e he)) hc
  exact ⟨hfollows.trans hfollows', hresult⟩

/-- Builders for some items build on each other's heaps. What holds of one of the results has to
hold after the heap has grown. -/
theorem sound_mapM {P : Heap → β → Prop} {f : α → Builder β} {xs : List α}
    (hkept : ∀ ⦃h h' : Heap⦄ ⦃b : β⦄, h.Follows strict h' → P h b → P h' b)
    (hf : ∀ x ∈ xs, Sound strict known (f x) P) :
    Sound strict known (xs.mapM f) fun h bs => ∀ b ∈ bs, P h b := by
  induction xs with
  | nil => exact sound_pure fun _ => List.forall_mem_nil _
  | cons x xs ih =>
    intro h h' bs hs hknown hrun
    rw [List.mapM_cons] at hrun
    obtain ⟨⟨b, middle⟩, hfirst, hrun⟩ := ok_of_bind hrun
    obtain ⟨⟨others, last⟩, hothers, hrun⟩ := ok_of_bind hrun
    obtain ⟨hfollows, hb⟩ := hf x List.mem_cons_self hs hknown hfirst
    obtain ⟨hfollows', hbs⟩ := ih (fun y hy => hf y (.tail _ hy)) hfollows.proper
      (fun e he => hfollows.has _ (hknown e he)) hothers
    cases hrun
    exact ⟨hfollows.trans hfollows', List.forall_mem_cons.2 ⟨hkept hfollows' hb, hbs⟩⟩

/-- Taking an array of the document apart builds nothing. -/
theorem sound_items (j : Json) : Sound strict known (items j) fun _ _ => True := by
  cases j with
  | arr js => exact sound_pure fun _ => trivial
  | _ => exact sound_throw _

/-- Taking the pairs of the document apart builds nothing. -/
theorem sound_pairs (j : Json) : Sound strict known (pairs j) fun _ _ => True := by
  refine sound_bind (sound_items j) fun js h h' ps _ hs hknown hrun => ?_
  refine ⟨(sound_mapM (P := fun _ _ => True) (fun _ _ _ _ _ => trivial) (fun pair _ => ?_) hs hknown
    hrun).1, trivial⟩
  split
  · exact sound_pure fun _ => trivial
  · exact sound_throw _

/-- Named values are sound if their values are. -/
theorem sound_named {value : Json → Builder Value}
    (hvalue : ∀ j, Sound strict known (value j) Heap.Has)
    (j : Json) : Sound strict known (named value j) fun h es => ∀ e ∈ es, h.Has e.2 := by
  refine sound_bind (sound_pairs j) fun ps h h' es _ hs hknown hrun => ?_
  refine sound_mapM (P := fun h e => h.Has e.2) (fun _ _ _ hfollows => hfollows.has _)
    (fun pair _ => ?_) hs hknown hrun
  refine sound_bind (hvalue pair.2) fun v h h' e hv hs hknown hrun => ?_
  obtain ⟨⟨name, last⟩, hname, hrun⟩ := ok_of_bind hrun
  obtain ⟨hfollows, -⟩ := sound_ofOption pair.1.str? hs hknown hname
  cases hrun
  exact ⟨hfollows, hfollows.has _ hv⟩

/-- Named values are sound where there may be none. -/
theorem sound_namedOrNone {value : Json → Builder Value}
    (hvalue : ∀ j, Sound strict known (value j) Heap.Has) (j : Option Json) :
    Sound strict known (namedOrNone value j) fun h es => ∀ e ∈ es, h.Has e.2 := by
  unfold namedOrNone
  split
  · exact sound_pure fun _ => List.forall_mem_nil _
  · exact sound_pure fun _ => List.forall_mem_nil _
  · exact sound_named hvalue _

/-- What an allocator builds, once it has ended well. -/
theorem ok_of_ofAllocator {a : Allocator α} {h h' : Heap} {x : α}
    (hrun : ofAllocator a h = .ok (x, h')) : a h = .ok (x, h') := by
  unfold ofAllocator at hrun
  cases ha : a h with
  | error e => rw [StateT.run, ha] at hrun; cases hrun
  | ok r => rw [StateT.run, ha] at hrun; exact congrArg _ (Except.ok.inj hrun)

/-- A value is made a key by reading the heap alone. -/
theorem sound_key (v : Value) : Sound strict known (key v) fun _ _ => True := by
  refine sound_bind (P := fun _ _ => True) (fun h h' found hs _ hrun => ?_)
    fun found h h' k _ hs hknown hrun => ?_
  · cases hrun
    exact ⟨.refl hs, trivial⟩
  · cases hk : v.toKey found with
    | error e => rw [hk] at hrun; cases hrun
    | ok k' =>
      rw [hk] at hrun
      exact sound_pure (P := fun _ _ => True) (fun _ => trivial) hs hknown hrun

/-- An entry of a hash is built from its key and its value. -/
theorem sound_entry {k v : Builder Value} (hk : Sound strict known k Heap.Has)
    (hv : Sound strict known v Heap.Has) :
    Sound strict known (do let k ← key (← k); return (k, ← v)) fun h e => h.Has e.2 := by
  refine sound_bind hk fun k h h' e _ hs hknown hrun => ?_
  refine sound_bind (Q := fun h e => h.Has e.2) (sound_key k)
    (fun k h h' e _ hs hknown hrun => ?_) hs hknown hrun
  refine sound_bind (Q := fun h e => h.Has e.2) hv (fun v h h' e hv hs _ hrun => ?_) hs hknown hrun
  cases hrun
  exact ⟨.refl hs, hv⟩

/-- The values that entries are inserted for. -/
theorem has_of_foldl_insert {κ : Type} [DecidableEq κ] {h : Heap} {es : List (κ × Value)}
    (hes : ∀ e ∈ es, h.Has e.2) {found : Entries κ Value} (hfound : ∀ e ∈ found, h.Has e.2) :
    ∀ e ∈ es.foldl (fun found e => Entries.insert e.1 e.2 found) found, h.Has e.2 := by
  induction es generalizing found with
  | nil => exact hfound
  | cons first rest ih =>
    obtain ⟨hfirst, hrest⟩ := List.forall_mem_cons.1 hes
    refine ih hrest fun e he => ?_
    rcases Entries.mem_insert he with rfl | he
    · exact hfirst
    · exact hfound e he

/-- An object has the cells of its instance variables if they were there before. -/
theorem sound_object (name : Json) {ivars : NamedValues} {h h' : Heap} {v : Value}
    (hivars : ∀ e ∈ ivars, h.Has e.2) (hs : h.Proper strict) (hknown : ∀ e ∈ known, h.Has e.2)
    (hrun : object name ivars h = .ok (v, h')) : h.Follows strict h' ∧ h'.Has v := by
  obtain ⟨⟨className, middle⟩, hname, hrun⟩ := ok_of_bind hrun
  obtain ⟨hfollows, -⟩ := sound_ofOption name.str? hs hknown hname
  cases ok_of_ofAllocator hrun
  have hkept : ∀ e ∈ ivars, middle.Has e.2 := fun e he => hfollows.has _ (hivars e he)
  exact ⟨hfollows.trans (Heap.follows_newObject hfollows.proper
    (has_of_foldl_insert hkept (List.forall_mem_nil _))), Heap.has_object⟩

/-- A hash is built from the entries of its pairs, if the keys and the values of these are sound. -/
theorem sound_hash {value : Json → Builder Value}
    (hvalue : ∀ j, Sound strict known (value j) Heap.Has) (j : Json) :
    Sound strict known (do
      let entries ← (← pairs j).mapM fun pair => do
        let k ← key (← value pair.1)
        return (k, ← value pair.2)
      let all := entries.foldl (fun es e => Entries.insert e.1 e.2 es) []
      ofAllocator (allocate (·.newHash all))) Heap.Has := by
  refine sound_bind (sound_pairs j) fun pairs h h' v _ hs hknown hrun => ?_
  refine sound_bind (sound_mapM (P := fun h e => h.Has e.2) (fun _ _ _ hfollows => hfollows.has _)
    fun pair _ => sound_entry (hvalue pair.1) (hvalue pair.2))
    (fun entries h h' v hentries hs _ hrun => ?_) hs hknown hrun
  cases ok_of_ofAllocator hrun
  exact ⟨Heap.follows_newHash hs (has_of_foldl_insert hentries (List.forall_mem_nil _)),
    Heap.has_hash⟩

/-- A hash of keywords is built from named values, and has no others. -/
theorem sound_keywords {entries : NamedValues} {h h' : Heap} {v : Value}
    (hentries : ∀ e ∈ entries, h.Has e.2) (hs : h.Proper strict)
    (hrun : ofAllocator (allocate (·.newHash (keywordEntries entries))) h = .ok (v, h')) :
    h.Follows strict h' ∧ h'.Has v := by
  cases ok_of_ofAllocator hrun
  refine ⟨Heap.follows_newHash hs fun e he => ?_, Heap.has_hash⟩
  rcases mem_of_keywordEntries he with he | ⟨entry, hentry, heq⟩
  · cases he
  · exact heq ▸ hentries entry hentry

/-- A value that is referred to by its name is one of those known. -/
theorem sound_ref (name : Json) :
    Sound strict known (do ofOption (known.lookup (← ofOption name.str?))) Heap.Has := by
  refine sound_bind (sound_ofOption _) fun text h h' v _ hs hknown hrun => ?_
  cases hfound : known.lookup text with
  | none => rw [hfound] at hrun; cases hrun
  | some w =>
    rw [hfound] at hrun
    cases hrun
    obtain ⟨front, back, rfl, -⟩ := List.lookup_eq_some_iff.1 hfound
    exact ⟨.refl hs, hknown _ (List.mem_append_right _ List.mem_cons_self)⟩

/-- **Values.** Every value that has a notation is built on the heap with new cells only. -/
theorem sound_value (fuel : Nat) : ∀ j, Sound strict known (value known fuel j) Heap.Has := by
  induction fuel with
  | zero => exact fun _ => nofun
  | succ fuel ih =>
    have hplain : ∀ j, Sound strict known (ofAllocator (Value.ofJson j)) Heap.Has :=
      fun _ _ _ _ hs _ hrun => Value.ofJson_follows hs (ok_of_ofAllocator hrun)
    intro j
    cases j with
    | arr js =>
      rw [value]
      refine sound_bind (sound_mapM (P := Heap.Has) (fun _ _ _ hfollows => hfollows.has _)
        fun j _ => ih j) fun values h h' v hvalues hs _ hrun => ?_
      cases ok_of_ofAllocator hrun
      exact ⟨Heap.follows_newArray hs hvalues, Heap.has_array⟩
    | obj members =>
      rw [value]
      split
      · refine sound_bind (sound_ofOption _) fun s h h' v _ hs _ hrun => ?_
        cases hrun
        exact ⟨.refl hs, trivial⟩
      split
      · exact sound_hash ih _
      split
      · refine sound_bind (sound_named ih _) fun entries h h' v hentries hs _ hrun => ?_
        exact sound_keywords hentries hs hrun
      split
      · rename_i name _
        exact sound_bind (sound_namedOrNone ih _) fun ivars _ _ _ => sound_object name
      split
      · exact hplain _
      split
      · exact sound_ref _
      · exact nofun
    | _ =>
      rw [value]
      · exact hplain _
      all_goals exact nofun

/-- Values with names are built one after the other, and each may refer to those before it. -/
theorem sound_valuesOf (ps : List (Json × Json)) : ∀ known : NamedValues,
    Sound strict known (valuesOf known ps) fun h es => ∀ e ∈ es, h.Has e.2 := by
  induction ps with
  | nil =>
    intro known h h' es hs hknown hrun
    cases hrun
    exact ⟨.refl hs, hknown⟩
  | cons first others ih =>
    obtain ⟨name, j⟩ := first
    intro known
    refine sound_bind (sound_value _ j) fun v h h' es hv hs hknown hrun => ?_
    obtain ⟨⟨text, middle⟩, hname, hrun⟩ := ok_of_bind hrun
    obtain ⟨hfollows, -⟩ := sound_ofOption name.str? hs hknown hname
    obtain ⟨hrest, hes⟩ := ih (known ++ [(text, v)]) hfollows.proper
      (List.forall_mem_append.2 ⟨fun e he => hfollows.has _ (hknown e he),
        List.forall_mem_singleton.2 (hfollows.has _ hv)⟩) hrun
    exact ⟨hfollows.trans hrest, hes⟩

end Builder

/-! ## Short notation of trees -/

section

variable {P : Json → Prop}

/-- There is no malformed node in a parameter in short notation. -/
theorem ParamNode.holds_readShort (fuel : Nat) :
    ∀ j : Json, Json.Gives (readShort fuel j) (Holds P) := by
  induction fuel with
  | zero => exact fun _ => nofun
  | succ fuel ih =>
    intro j
    rw [readShort.eq_def]
    simp only
    split
    case h_1 => exact Json.gives_map fun _ _ => trivial
    case h_2 | h_4 | h_6 => exact Json.gives_bind fun _ _ => Json.gives_pure trivial
    case h_3 | h_5 | h_8 =>
      exact Json.gives_bind fun _ _ => Json.gives_bind fun _ _ => Json.gives_pure trivial
    case h_7 children =>
      refine Json.gives_bind fun nodes hnodes =>
        Json.gives_pure (holds_group.2 fun node hnode => ?_)
      obtain ⟨item, -, hitem⟩ :=
        Json.inherited_depth.of_list? (Nat.lt_succ_self _) hnodes node hnode
      exact ih item node hitem
    case h_9 => exact Json.gives_none

/-- There is no malformed node in a target in short notation, and none is written as if nothing were
there. -/
theorem TargetNode.holds_readShort (fuel : Nat) :
    ∀ j : Json, Json.Gives (readShort fuel j) fun node => node.Holds P ∧ node.toJson ≠ .null := by
  induction fuel with
  | zero => exact fun _ => nofun
  | succ fuel ih =>
    intro j
    rw [readShort.eq_def]
    simp only
    split
    case h_1 | h_2 | h_3 =>
      exact Json.gives_bind fun _ _ => Json.gives_pure ⟨trivial, nofun⟩
    case h_4 children =>
      refine Json.gives_bind fun nodes hnodes =>
        Json.gives_pure ⟨holds_nested.2 fun node hnode => ?_, nofun⟩
      obtain ⟨item, -, hitem⟩ :=
        Json.inherited_depth.of_list? (Nat.lt_succ_self _) hnodes node hnode
      exact (ih item node hitem).1
    case h_5 target =>
      refine Json.gives_bind fun found hfound => Json.gives_pure ?_
      cases found with
      | none => exact ⟨trivial, nofun⟩
      | some node =>
        have hnode : readShort fuel target = some node := by
          cases target with
          | null => cases hfound
          | _ => simpa [Json.nullable?] using hfound
        exact ⟨ih target node hnode, nofun⟩
    case h_6 =>
      exact Json.gives_bind fun _ _ => Json.gives_bind fun _ _ => Json.gives_pure ⟨trivial, nofun⟩
    case h_7 => exact Json.gives_none

/-- **Short notation.** Nodes in short notation are none that are malformed, so that what is asked
of malformed nodes holds of them. -/
theorem holds_ofShort? : (∀ j list, ParamList.ofShort? j = some list →
      ∀ node ∈ list.nodes, node.Holds P) ∧
    ∀ j list, TargetList.ofShort? j = some list → ∀ node ∈ list.nodes, node.Holds P := by
  refine ⟨fun j list hlist node hnode => ?_, fun j list hlist node hnode => ?_⟩
  · obtain ⟨nodes, hnodes, hlist⟩ := Option.bind_eq_some_iff.1 hlist
    cases hlist
    obtain ⟨item, -, hitem⟩ := Json.inherited_depth.of_list? (Nat.lt_succ_self _) hnodes node hnode
    exact ParamNode.holds_readShort _ item node hitem
  · obtain ⟨nodes, hnodes, hlist⟩ := Option.bind_eq_some_iff.1 hlist
    cases hlist
    obtain ⟨item, -, hitem⟩ := Json.inherited_depth.of_list? (Nat.lt_succ_self _) hnodes node hnode
    exact (TargetNode.holds_readShort _ item node hitem).1

end

end Formals
