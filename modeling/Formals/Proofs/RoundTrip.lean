import Formals.Cache.Key
import Formals.Proofs.Doubles
import Formals.Proofs.Normalizing

/-!
# What is written is read back

A tree is read back from its document (`ParamNode.read_toJson`, `TargetNode.read_toJson`,
`Body.ofJson?_toJson`), provided that its malformed nodes are: that the documents which they keep
are read as malformed again (`Settled`). Those of a body that is read from a value are, since
sorting does not change what is read. So nothing is lost when a body is written and read again, and
what bodies are written as tells them apart (`bodies_read_back`).
-/

namespace Formals

/-! ## Fields -/

namespace Json

/-- A natural number below the bound is read as itself. -/
theorem natBelow?_natCast {bound n : Nat} (h : n < bound) : (int n).natBelow? bound = some n := by
  rw [natBelow?, if_pos ⟨Int.natCast_nonneg n, Int.ofNat_lt.2 h⟩, Int.toNat_natCast]

/-- A word is read back as it was written. -/
theorem word?_toNat (n : UInt32) : (int n.toNat).word? = some n := by
  rw [word?, natBelow?_natCast n.toNat_lt_size, Option.map_some, UInt32.ofNat_toNat]

/-- A field that has to be there is read from what stands in it. -/
theorem required?_some {α : Type} (read : Json → Option α) (j : Json) :
    required? read (some j) = read j := by
  rw [required?, Option.bind_some]

/-- What may be missing is read back if what is there is, and is not written as `null`. -/
theorem nullable?_getD_null {α : Type} {write : α → Json} {read : Json → Option α}
    (hnull : ∀ x, write x ≠ null) {a : Option α} (hread : ∀ x ∈ a, read (write x) = some x) :
    ((a.map write).getD null).nullable? read = some a := by
  cases a with
  | none => rfl
  | some x => exact (nullable?_of_ne read (hnull x)).trans (congrArg _ (hread x rfl))

/-- A name that may be missing is read back as it was written. -/
theorem nullable?_ofString? (s : Option String) : (ofString? s).nullable? str? = some s := by
  rw [ofString?_eq]
  exact nullable?_getD_null nofun fun _ _ => rfl

/-- Nodes are read back as they were written if each of them is. -/
theorem mapM_map_eq_some {α : Type} {read : Json → α} {write : α → Json} {nodes : List α}
    (h : ∀ node ∈ nodes, read (write node) = node) :
    (nodes.map write).mapM (fun j => some (read j)) = some nodes := by
  have hnodes : nodes.map (read ∘ write) = nodes :=
    (List.map_congr_left h).trans (List.map_id nodes)
  rw [← List.map_map] at hnodes
  exact (List.mapM_pure (m := Option)).trans (congrArg some hnodes)

/-- Nodes are read back by a reader with fuel, which has to exceed the depth of each of them. -/
theorem mapM_read_map {α : Type} {read : Nat → Json → α} {write : α → Json} {nodes : List α}
    {fuel : Nat} (hfuel : depthItems (nodes.map write) < fuel)
    (h : ∀ node ∈ nodes, ∀ n, (write node).depth ≤ n → read (n + 1) (write node) = node) :
    (nodes.map write).mapM (fun j => some (read fuel j)) = some nodes := by
  obtain ⟨n, rfl⟩ : ∃ n, fuel = n + 1 := ⟨fuel - 1, by omega⟩
  exact mapM_map_eq_some fun node hnode => h node hnode n
    (depthItems_le_iff.1 (Nat.le_of_lt_succ hfuel) _ (List.mem_map_of_mem hnode))

/-- An object is no string, and so it is not read as a marker. -/
theorem obj_ne_str (members : List (String × Json)) (text : String) : obj members ≠ str text :=
  nofun

/-- The fields of a record that is written with two fields are these. -/
theorem fields?_two {a b : String} (h : a ≠ b) (x y : Json) :
    (obj [(a, x), (b, y)]).fields? [a, b] = some [some x, some y] := by
  simp [fields?, valuesOf, h, h.symm]

/-- The fields of a record that is written with three fields are these. -/
theorem fields?_three {a b c : String} (hab : a ≠ b) (hac : a ≠ c) (hbc : b ≠ c) (x y z : Json) :
    (obj [(a, x), (b, y), (c, z)]).fields? [a, b, c] = some [some x, some y, some z] := by
  simp [fields?, valuesOf, hab, hab.symm, hac, hac.symm, hbc, hbc.symm]

end Json

/-- The fields of a span as it is written. -/
theorem Span.fields?_toJson (s : Span) : s.toJson.fields? ["start", "length"] =
    some [some (.int s.start.toNat), some (.int s.length.toNat)] :=
  Json.fields?_two (by decide) _ _

/-- A span is read if its fields are words. -/
theorem Span.ofJson?_of_fields? {j a b : Json} {start length : UInt32}
    (h : j.fields? ["start", "length"] = some [some a, some b]) (ha : a.word? = some start)
    (hb : b.word? = some length) : Span.ofJson? j = some ⟨start, length⟩ := by
  rw [ofJson?, h]
  simp only [Option.bind_eq_bind, Option.bind_some, Json.required?_some, ha, hb, Option.pure_def]

/-- A span is read back as it was written. -/
@[simp] theorem Span.field?_toJson (s : Span) : Span.field? (some s.toJson) = some s := by
  rw [field?, Json.optional?, ofJson?_of_fields? s.fields?_toJson (Json.word?_toNat s.start)
    (Json.word?_toNat s.length)]

/-- An expression inside another node is read back if the fuel exceeds its depth. -/
theorem Expr.read_toJson_of_lt {e : Expr} {fuel : Nat} (h : e.toJson.depth < fuel) :
    read .byNameOrPlace fuel e.toJson = some e := by
  obtain ⟨fuel, rfl⟩ : ∃ n, fuel = n + 1 := ⟨fuel - 1, by omega⟩
  exact read_toJson .byNameOrPlace e fuel (by omega)

/-- A list of nodes is read back as it was written if each of its nodes is. -/
theorem Json.nodes?_ofNodes {α : Type} {name : String} {node : Json → α} {write : α → Json}
    (hname : name ≠ "span") {nodes : List α} {span : Span}
    (h : ∀ n ∈ nodes, node (write n) = n) :
    (ofNodes name (nodes.map write) span).nodes? name node = some (nodes, span) := by
  rw [nodes?, ofNodes, fields?_two hname]
  simp only [Option.bind_eq_bind, Option.bind_some, optional?, list?, mapM_map_eq_some h,
    Span.field?_toJson, Option.pure_def]

/-! ## Parameters -/

namespace ParamNode

open Json

section

variable {fuel : Nat} {j record s : Json} {span : Span} {text : String}
  (hj : ∀ text, j ≠ str text) (hspan : Span.field? (some s) = some span)

include hj hspan

/-- What a required parameter is read from. -/
theorem read_required (hv : j.variant? "type" tags .byNameOrPlace = some ("required", record))
    (hfields : record.fields? ["name", "span"] = some [some (str text), some s]) :
    read (fuel + 1) j = required text span := by
  rw [read, hv]
  · simp only [Option.bind_eq_bind, Option.bind_some, hfields, required?_some, str?, hspan,
      Option.pure_def, Option.getD_some]
  · exact hj

/-- What an optional parameter is read from. -/
theorem read_optional {value : Json} {default : Expr}
    (hv : j.variant? "type" tags .byNameOrPlace = some ("optional", record))
    (hfields : record.fields? ["name", "value", "span"] =
      some [some (str text), some value, some s])
    (hvalue : Expr.read .byNameOrPlace fuel value = some default) :
    read (fuel + 1) j = optional text default span := by
  rw [read, hv]
  · simp only [Option.bind_eq_bind, Option.bind_some, hfields, required?_some, str?, hvalue, hspan,
      Option.pure_def, Option.getD_some]
  · exact hj

/-- What the parameter for the rest and that for the other keywords are read from, each with its
tag. -/
theorem read_collecting {value : Json} {name : Option String} {tag : String}
    {node : Option String → Span → ParamNode}
    (htag : tag = "rest" ∧ node = rest ∨ tag = "keyword_rest" ∧ node = keywordRest)
    (hv : j.variant? "type" tags .byNameOrPlace = some (tag, record))
    (hfields : record.fields? ["name", "span"] = some [some value, some s])
    (hname : value.nullable? str? = some name) : read (fuel + 1) j = node name span := by
  rw [read, hv]
  · rcases htag with ⟨rfl, rfl⟩ | ⟨rfl, rfl⟩ <;>
      simp only [Option.bind_eq_bind, Option.bind_some, hfields, optional?, hname, hspan,
        Option.pure_def, Option.getD_some]
  · exact hj

/-- What a keyword is read from. -/
theorem read_keyword {value : Json} {default : Option Expr}
    (hv : j.variant? "type" tags .byNameOrPlace = some ("keyword", record))
    (hfields : record.fields? ["name", "value", "span"] =
      some [some (str text), some value, some s])
    (hvalue : value.nullable? (Expr.read .byNameOrPlace fuel) = some default) :
    read (fuel + 1) j = keyword text default span := by
  rw [read, hv]
  · simp only [Option.bind_eq_bind, Option.bind_some, hfields, required?_some, str?, optional?,
      hvalue, hspan, Option.pure_def, Option.getD_some]
  · exact hj

/-- What a group is read from. -/
theorem read_group {items : List Json} {children : List ParamNode}
    (hv : j.variant? "type" tags .byNameOrPlace = some ("destructure", record))
    (hfields : record.fields? ["parameters", "span"] = some [some (arr items), some s])
    (hitems : items.mapM (fun p => some (read fuel p)) = some children) :
    read (fuel + 1) j = group children span := by
  rw [read, hv]
  · simp only [Option.bind_eq_bind, Option.bind_some, hfields, required?_some, list?, hitems, hspan,
      Option.pure_def, Option.getD_some]
  · exact hj

/-- What an attribute is read from. -/
theorem read_attr {value : Json} {receiver : Expr}
    (hv : j.variant? "type" tags .byNameOrPlace = some ("attribute_target", record))
    (hfields : record.fields? ["receiver", "name", "span"] =
      some [some value, some (str text), some s])
    (hvalue : Expr.read .byNameOrPlace fuel value = some receiver) :
    read (fuel + 1) j = attr receiver text span := by
  rw [read, hv]
  · simp only [Option.bind_eq_bind, Option.bind_some, hfields, required?_some, str?, hvalue, hspan,
      Option.pure_def, Option.getD_some]
  · exact hj

end

/-- A malformed node that is read back from its document. -/
def Settled (raw : Json) : Prop := ∀ fuel, raw.depth < fuel → read fuel raw = malformed raw

/-- A parameter is read back as it was written, with as much fuel as its document is deep. -/
theorem read_toJson {node : ParamNode} {fuel : Nat} (h : node.Holds Settled)
    (hfuel : node.toJson.depth ≤ fuel) : read (fuel + 1) node.toJson = node := by
  induction node generalizing fuel with
  | marker text => rfl
  | malformed raw => exact h (fuel + 1) (Nat.lt_succ_of_le hfuel)
  | required name span =>
    exact read_required (obj_ne_str _) span.field?_toJson (variant?_cons _ (by decide) (by simp))
      (fields?_two (by decide) _ _)
  | optional name default span =>
    have hdefault : default.toJson.depth < fuel := by
      simp [toJson, depth, depthMembers] at hfuel
      omega
    exact read_optional (obj_ne_str _) span.field?_toJson (variant?_cons _ (by decide) (by simp))
      (fields?_three (by decide) (by decide) (by decide) _ _ _) (Expr.read_toJson_of_lt hdefault)
  | rest name span =>
    exact read_collecting (obj_ne_str _) span.field?_toJson (.inl ⟨rfl, rfl⟩)
      (variant?_cons _ (by decide) (by simp)) (fields?_two (by decide) _ _)
      (nullable?_ofString? name)
  | keyword name default span =>
    have hdefault : ∀ e ∈ default, Expr.read .byNameOrPlace fuel e.toJson = some e := by
      rintro e rfl
      simp [toJson, depth, depthMembers] at hfuel
      exact Expr.read_toJson_of_lt (by omega)
    exact read_keyword (obj_ne_str _) span.field?_toJson (variant?_cons _ (by decide) (by simp))
      (fields?_three (by decide) (by decide) (by decide) _ _ _)
      (nullable?_getD_null Expr.toJson_ne_null hdefault)
  | keywordRest name span =>
    exact read_collecting (obj_ne_str _) span.field?_toJson (.inr ⟨rfl, rfl⟩)
      (variant?_cons _ (by decide) (by simp)) (fields?_two (by decide) _ _)
      (nullable?_ofString? name)
  | group children span ih =>
    have hdepth : depthItems (children.map toJson) < fuel := by
      simp [toJson, depth, depthMembers, listToJson_eq_map] at hfuel
      omega
    refine read_group (obj_ne_str _) span.field?_toJson (variant?_cons _ (by decide) (by simp))
      (fields?_two (by decide) _ _) ?_
    rw [listToJson_eq_map]
    exact mapM_read_map hdepth fun child hchild _ => ih child hchild (holds_group.1 h child hchild)
  | attr receiver writer span =>
    have hreceiver : receiver.toJson.depth < fuel := by
      simp [toJson, depth, depthMembers] at hfuel
      omega
    exact read_attr (obj_ne_str _) span.field?_toJson (variant?_cons _ (by decide) (by simp))
      (fields?_three (by decide) (by decide) (by decide) _ _ _) (Expr.read_toJson_of_lt hreceiver)

/-- A node is read back with the fuel that its document brings. -/
theorem ofJson_toJson {node : ParamNode} (h : node.Holds Settled) : ofJson node.toJson = node :=
  read_toJson h (Nat.le_refl _)

/-- A malformed node that is read from a value is settled. -/
theorem settled_of_read {fuel : Nat} {j : Json} (hj : j.Within fuel)
    (h : read fuel j = malformed j.normalize) : Settled j.normalize := fun _ hfuel =>
  (read_normalize hj hfuel).trans h

end ParamNode

/-- A list of parameters is read back as it was written. -/
theorem ParamList.ofJson?_toJson {list : ParamList}
    (h : ∀ node ∈ list.nodes, node.Holds ParamNode.Settled) : ofJson? list.toJson = some list := by
  rw [toJson, ParamNode.listToJson_eq_map, ofJson?,
    Json.nodes?_ofNodes (by decide) fun node hnode => ParamNode.ofJson_toJson (h node hnode)]
  rfl

/-! ## Targets -/

namespace TargetNode

open Json

section

variable {fuel : Nat} {j record s : Json} {span : Span} {text : String}
  (hspan : Span.field? (some s) = some span)

include hspan

/-- What a variable is read from. -/
theorem read_var {kind : VariableKind}
    (hv : j.variant? "type" tags .byNameOrPlace = some (kind.tag, record))
    (hfields : record.fields? ["name", "span"] = some [some (str text), some s]) :
    read (fuel + 1) j = var kind text span := by
  have hread : readVariable kind record = some (var kind text span) := by
    rw [readVariable, hfields]
    simp only [Option.bind_eq_bind, Option.bind_some, required?_some, str?, hspan, Option.pure_def]
  rw [read, hv]
  cases kind <;>
    simp only [VariableKind.tag, Option.bind_eq_bind, Option.bind_some, hread, Option.getD_some]

/-- What a list of targets in parentheses is read from. -/
theorem read_nested {items : List Json} {children : List TargetNode}
    (hv : j.variant? "type" tags .byNameOrPlace = some ("nested", record))
    (hfields : record.fields? ["targets", "span"] = some [some (arr items), some s])
    (hitems : items.mapM (fun t => some (read fuel t)) = some children) :
    read (fuel + 1) j = nested children span := by
  rw [read, hv]
  simp only [Option.bind_eq_bind, Option.bind_some, hfields, required?_some, list?, hitems, hspan,
    Option.pure_def, Option.getD_some]

/-- What a splat is read from. -/
theorem read_splat {value : Json} {target : Option TargetNode}
    (hv : j.variant? "type" tags .byNameOrPlace = some ("splat", record))
    (hfields : record.fields? ["target", "span"] = some [some value, some s])
    (hvalue : value.nullable? (fun t => some (read fuel t)) = some target) :
    read (fuel + 1) j = splat target span := by
  rw [read, hv]
  simp only [Option.bind_eq_bind, Option.bind_some, hfields, optional?, hvalue, hspan,
    Option.pure_def, Option.getD_some]

/-- What an attribute is read from. -/
theorem read_attr {value : Json} {receiver : Expr}
    (hv : j.variant? "type" tags .byNameOrPlace = some ("attribute", record))
    (hfields : record.fields? ["receiver", "name", "span"] =
      some [some value, some (str text), some s])
    (hvalue : Expr.read .byNameOrPlace fuel value = some receiver) :
    read (fuel + 1) j = attr receiver text span := by
  rw [read, hv]
  simp only [Option.bind_eq_bind, Option.bind_some, hfields, required?_some, str?, hvalue, hspan,
    Option.pure_def, Option.getD_some]

end

/-- A malformed node that is read back from its document. -/
def Settled (raw : Json) : Prop := ∀ fuel, raw.depth < fuel → read fuel raw = malformed raw

/-- A target is read back as it was written, with as much fuel as its document is deep. -/
theorem read_toJson {node : TargetNode} {fuel : Nat} (h : node.Holds Settled)
    (hfuel : node.toJson.depth ≤ fuel) : read (fuel + 1) node.toJson = node := by
  induction node generalizing fuel with
  | malformed raw => exact h (fuel + 1) (Nat.lt_succ_of_le hfuel)
  | var kind name span =>
    exact read_var span.field?_toJson (variant?_cons _ (by cases kind <;> decide) (by simp))
      (fields?_two (by decide) _ _)
  | nested children span ih =>
    have hdepth : depthItems (children.map toJson) < fuel := by
      simp [toJson, depth, depthMembers, listToJson_eq_map] at hfuel
      omega
    refine read_nested span.field?_toJson (variant?_cons _ (by decide) (by simp))
      (fields?_two (by decide) _ _) ?_
    rw [listToJson_eq_map]
    exact mapM_read_map hdepth fun child hchild _ => ih child hchild (holds_nested.1 h child hchild)
  | splat target span ih =>
    cases target with
    | none =>
      exact read_splat span.field?_toJson (variant?_cons _ (by decide) (by simp))
        (fields?_two (by decide) _ _) rfl
    | some target =>
      have htarget : target.toJson.depth < fuel := by
        simp [toJson, depth, depthMembers] at hfuel
        omega
      obtain ⟨fuel, rfl⟩ : ∃ n, fuel = n + 1 := ⟨fuel - 1, by omega⟩
      refine read_splat span.field?_toJson (variant?_cons _ (by decide) (by simp))
        (fields?_two (by decide) _ _) ?_
      rw [nullable?_of_ne _ h.2, ih target rfl h.1 (by omega), Option.map_some]
  | attr receiver writer span =>
    have hreceiver : receiver.toJson.depth < fuel := by
      simp [toJson, depth, depthMembers] at hfuel
      omega
    exact read_attr span.field?_toJson (variant?_cons _ (by decide) (by simp))
      (fields?_three (by decide) (by decide) (by decide) _ _ _) (Expr.read_toJson_of_lt hreceiver)

/-- A node is read back with the fuel that its document brings. -/
theorem ofJson_toJson {node : TargetNode} (h : node.Holds Settled) : ofJson node.toJson = node :=
  read_toJson h (Nat.le_refl _)

/-- A malformed node that is read from a value is settled. -/
theorem settled_of_read {fuel : Nat} {j : Json} (hj : j.Within fuel)
    (h : read fuel j = malformed j.normalize) : Settled j.normalize := fun _ hfuel =>
  (read_normalize hj hfuel).trans h

end TargetNode

/-- A list of targets is read back as it was written. -/
theorem TargetList.ofJson?_toJson {list : TargetList}
    (h : ∀ node ∈ list.nodes, node.Holds TargetNode.Settled) : ofJson? list.toJson = some list := by
  rw [toJson, TargetNode.listToJson_eq_map, ofJson?,
    Json.nodes?_ofNodes (by decide) fun node hnode => TargetNode.ofJson_toJson (h node hnode)]
  rfl

/-! ## Bodies -/

namespace Body

open Json

section

variable {j record s : Json} {span : Span} {text : String}
  (hspan : Span.field? (some s) = some span)

include hspan

/-- What a body with parameters is read from. -/
theorem ofJson?_callable {kind : CallableKind} {value : Json} {params : Option ParamList}
    (hv : j.variant? "kind" tags .byName = some (kind.tag, record))
    (hfields : record.fields? ["name", "parameters", "span"] =
      some [some (str text), some value, some s])
    (hvalue : value.nullable? ParamList.ofJson? = some params) :
    ofJson? j = some (callable kind text params span) := by
  have hread : readCallable kind record = some (callable kind text params span) := by
    rw [readCallable, hfields]
    simp only [Option.bind_eq_bind, Option.bind_some, required?_some, str?, optional?, hvalue,
      hspan, Option.pure_def]
  rw [ofJson?, hv]
  cases kind <;> simp only [CallableKind.tag, Option.bind_eq_bind, Option.bind_some, hread]

/-- What a multiple assignment is read from. -/
theorem ofJson?_assignment {value : Json} {targets : TargetList}
    (hv : j.variant? "kind" tags .byName = some ("multiple_assignment", record))
    (hfields : record.fields? ["name", "targets", "span"] =
      some [some (str text), some value, some s])
    (hvalue : TargetList.ofJson? value = some targets) :
    ofJson? j = some (assignment text targets span) := by
  rw [ofJson?, hv]
  simp only [Option.bind_eq_bind, Option.bind_some, hfields, required?_some, str?, hvalue, hspan,
    Option.pure_def]

end

/-- A body is read back as it was written. -/
theorem ofJson?_toJson {body : Body} (h : body.Holds ParamNode.Settled TargetNode.Settled) :
    ofJson? body.toJson = some body := by
  cases body with
  | callable kind name params span =>
    refine ofJson?_callable span.field?_toJson
      (variant?_cons _ (by cases kind <;> decide) (by simp))
      (fields?_three (by decide) (by decide) (by decide) _ _ _) ?_
    have hshown : ∀ list : ParamList, list.toJson ≠ null := fun _ => nofun
    exact nullable?_getD_null hshown fun list hlist => ParamList.ofJson?_toJson (h list hlist)
  | assignment name targets span =>
    exact ofJson?_assignment span.field?_toJson (variant?_cons _ (by decide) (by simp))
      (fields?_three (by decide) (by decide) (by decide) _ _ _) (TargetList.ofJson?_toJson h)

/-- What is written of a body that was read from a value is read as that body. -/
theorem ofJson?_written {v : Json} (hv : v.Unique) {body : Body} (h : ofJson? v = some body) :
    ofJson? body.toJson.normalize = some body := by
  have hwithin : v.Within (v.depth + 1) := ⟨hv, Nat.lt_succ_self _⟩
  have hsettled : body.Holds ParamNode.Settled TargetNode.Settled :=
    holds_ofJson? inherited_within (fun _ _ => ParamNode.settled_of_read)
      (fun _ _ => TargetNode.settled_of_read) hwithin body h
  have hunique : body.Holds Unique Unique :=
    holds_ofJson? inherited_within (fun _ j _ _ => unique_normalize j)
      (fun _ j _ _ => unique_normalize j) hwithin body h
  rw [ofJson?_normalize (hunique.composed composed_unique), ofJson?_toJson hsettled]

end Body

/-! ## Numbers of double precision -/

/-- A whole number is rounded to a number of double precision. -/
theorem Double.representable_ofNat (n : Nat) : (Double.ofNat n).Representable :=
  representable_round ..

/-- A number of double precision stays one, however often it is divided by powers of ten. -/
theorem Double.representable_overPower {x : Double} (hx : x.Representable) (n : Nat) :
    (x.overPower n).Representable := by
  fun_induction Double.overPower x n with
  | case1 => exact representable_round ..
  | case2 => exact hx
  | case3 _ _ _ _ ih => exact ih (representable_round ..)

/-- A decimal number is read as one of double precision, unless it is too large. -/
theorem Double.representable_ofDecimal? {digits : Nat} {exponent : Int} {x : Double}
    (h : Double.ofDecimal? digits exponent = some x) : x.Representable := by
  rw [ofDecimal?] at h
  split at h
  · cases h
    exact representable_overPower (representable_ofNat digits) _
  · rw [timesPower?] at h
    split at h
    · cases h
      exact representable_ofNat digits
    · split at h
      · simp only at h
        split at h
        · cases h
          exact representable_round ..
        · cases h
      · cases h

namespace Json

/-- The numbers of double precision in a document are such. -/
def Precise (j : Json) : Prop := j.Throughout fun
  | real _ x => x.Representable
  | _ => True

/-- A document without parts has no number of double precision but itself. -/
theorem precise_leaf {j : Json} (hj : j.depth = 0)
    (hreal : ∀ negative x, j = real negative x → x.Representable) : j.Precise := by
  refine (throughout_leaf hj).2 ?_
  split
  · exact hreal _ _ rfl
  · trivial

/-- An array is precise if its items are. -/
theorem precise_arr {items : List Json} : (arr items).Precise ↔ ∀ j ∈ items, j.Precise :=
  throughout_arr.trans (and_iff_right trivial)

/-- An object is precise if the values of its members are. -/
theorem precise_obj {members : List (String × Json)} :
    (obj members).Precise ↔ ∀ m ∈ members, m.2.Precise :=
  throughout_obj.trans (and_iff_right trivial)

/-- The parts of a precise document are precise. -/
theorem inherited_precise : Inherited fun _ j => j.Precise :=
  inherited_throughout (fun _ _ _ => trivial) fun _ _ _ => trivial

/-! ### What is parsed -/

/-- A number with a fraction or an exponent is rounded to double precision, or is broken if it is
too large for that. -/
theorem precise_decimal (negative : Bool) (whole fraction : List Char) (exponent : Int) :
    (decimal negative whole fraction exponent).Precise := by
  have hround : ∀ digits scale,
      (((Double.ofDecimal? digits scale).map (real negative)).getD broken).Precise := by
    intro digits scale
    cases hx : Double.ofDecimal? digits scale with
    | none => exact precise_leaf rfl nofun
    | some x => exact precise_leaf rfl fun _ _ hj =>
        (real.inj hj).2 ▸ Double.representable_ofDecimal? hx
  exact hround _ _

/-- An integer is kept as it is, and one that is too large for that is rounded to double precision.
-/
theorem precise_integer (negative : Bool) (whole : List Char) :
    (integer negative whole).Precise := by
  rw [integer]
  split
  · split
    · exact precise_decimal _ _ _ _
    · exact precise_leaf rfl nofun
  · split
    · exact precise_leaf rfl nofun
    · exact precise_decimal _ _ _ _

/-- A number is one of these. -/
theorem precise_unsigned? (negative : Bool) (cs : List Char) :
    Gives (unsigned? negative cs) fun r => r.1.Precise := by
  refine gives_bind fun ⟨whole, rest⟩ _ => ?_
  simp only
  split
  · exact gives_none
  · split
    · exact gives_bind fun _ _ => gives_bind fun _ _ => gives_pure (precise_decimal _ _ _ _)
    · refine gives_bind fun found _ => ?_
      split
      · exact gives_pure (precise_decimal _ _ _ _)
      · exact gives_pure (precise_integer _ _)

/-- An object is put together from its members, if none of their names is broken. -/
theorem precise_object {members : List (Option String × Json)}
    (h : ∀ m ∈ members, m.2.Precise) : (object members).Precise := by
  rw [object]
  split
  case h_1 named hnamed =>
    refine precise_obj.2 fun n hn => ?_
    obtain ⟨m, hm, heq⟩ := exists_of_mem_mapM hnamed n hn
    obtain ⟨_, -, rfl⟩ := Option.map_eq_some_iff.1 heq
    exact h m hm
  case h_2 => exact precise_leaf rfl nofun

/-- A value, items and members that are parsed with some fuel. -/
theorem precise_value? (fuel : Nat) : (∀ cs, Gives (value? fuel cs) fun r => r.1.Precise) ∧
    (∀ cs, Gives (items? fuel cs) fun r => ∀ j ∈ r.1, j.Precise) ∧
    ∀ cs, Gives (members? fuel cs) fun r => ∀ m ∈ r.1, m.2.Precise := by
  -- the three read each other with less fuel, so they are proved together
  induction fuel with
  | zero => exact ⟨fun _ => gives_none, fun _ => gives_none, fun _ => gives_none⟩
  | succ fuel ih =>
    obtain ⟨hvalue, hitems, hmembers⟩ := ih
    refine ⟨fun cs => ?_, fun cs => ?_, fun cs => ?_⟩
    · rw [value?]
      split
      case h_1 rest _ =>
        split
        · exact gives_pure (precise_obj.2 nofun)
        · exact gives_map fun r hr => precise_object (hmembers rest r hr)
      case h_2 rest _ =>
        split
        · exact gives_pure (precise_arr.2 nofun)
        · exact gives_map fun r hr => precise_arr.2 (hitems rest r hr)
      case h_3 =>
        refine gives_map fun r _ => ?_
        obtain ⟨text, after⟩ := r
        cases text <;> exact precise_leaf rfl nofun
      case h_4 | h_5 | h_6 => exact gives_pure (precise_leaf rfl nofun)
      case h_7 | h_8 => exact precise_unsigned? _ _
    · rw [items?]
      refine gives_bind fun first hfirst => ?_
      simp only
      split
      · exact gives_bind fun others hothers => gives_pure
          (List.forall_mem_cons.2 ⟨hvalue _ _ hfirst, hitems _ _ hothers⟩)
      · exact gives_pure (List.forall_mem_singleton.2 (hvalue _ _ hfirst))
      · exact gives_none
    · rw [members?]
      split
      · refine gives_bind fun name _ => ?_
        split
        split
        · refine gives_bind fun value hfirst => ?_
          simp only
          split
          · exact gives_bind fun others hothers => gives_pure
              (List.forall_mem_cons.2 ⟨hvalue _ _ hfirst, hmembers _ _ hothers⟩)
          · exact gives_pure (List.forall_mem_singleton.2 (hvalue _ _ hfirst))
          · exact gives_none
        · exact gives_none
      · exact gives_none

/-- The numbers in a text are rounded to double precision, where they are no integers. -/
theorem precise_parse {text : String} {j : Json} (h : parse text = some j) : j.Precise := by
  rw [parse] at h
  split at h
  case h_1 found rest hfound =>
    split at h
    · cases h
      exact (precise_value? _).1 _ _ hfound
    · cases h
  case h_2 => cases h

/-! ### Different numbers, different texts -/

/-- Numbers of double precision have texts of their own, so that documents with no other numbers do
if nothing in them is broken. -/
theorem Precise.distinct {j : Json} (h : j.Precise) (hsound : j.sound = true) : j.Distinct := by
  intro k hk
  have hprecise := h k hk
  have hwhole := sound_iff.1 hsound k hk
  cases k with
  | real => exact fun _ htext => Double.eq_of_text hprecise htext
  | broken => exact absurd rfl hwhole
  | _ => trivial

/-- The parts of a document whose numbers have texts of their own are such documents. -/
theorem inherited_distinct : Inherited fun _ j => j.Distinct :=
  inherited_throughout (fun _ _ _ => trivial) fun _ _ _ => trivial

/-- Sorting leaves all numbers, so that they still have texts of their own. -/
theorem distinct_normalize {j : Json} (h : j.Distinct) : j.normalize.Distinct :=
  Throughout.normalize (fun _ _ hk => hk) (fun _ => trivial) (fun _ _ => trivial) h

/-- A document that is a value: nothing in it is broken, no object has two members of one name, and
its numbers of double precision are such. -/
structure IsValue (j : Json) : Prop where
  sound : j.sound = true
  unique : j.Unique
  precise : j.Precise

end Json

/-! ## Bodies that are read -/

namespace Body

open Json

/-- A body that is read, by itself from a value or in a unit from a text. -/
inductive FromJson : Body → Prop
  | value {v : Json} {body : Body} : v.IsValue → ofJson? v = some body → FromJson body
  | text {text : String} {unit : CompilationUnit} {body : Body} :
    CompilationUnit.ofText? text = some unit → body ∈ unit.bodies → FromJson body

/-- A body that is read, in whatever way, is read from a document with nothing broken in it and with
proper numbers. Such a document may have repeated names if it is parsed. -/
theorem FromJson.exists_document {body : Body} (h : body.FromJson) :
    ∃ j : Json, j.Precise ∧ j.sound = true ∧ ofJson? j = some body := by
  cases h with
  | value hv hread => exact ⟨_, hv.precise, hv.sound, hread⟩
  | text hunit hbody =>
    exact CompilationUnit.exists_document (n := 0) inherited_precise (fun _ => precise_parse) hunit
      body hbody

/-- A body that is read is told apart from the others by its text. -/
theorem FromJson.eq_of_text {body other : Body} (h : body.FromJson) (hother : other.FromJson)
    (heq : other.toJson.text = body.toJson.text) : other = body := by
  obtain ⟨j, hprecise, hsound, hj⟩ := h.exists_document
  obtain ⟨j', hprecise', hsound', hj'⟩ := hother.exists_document
  have hdistinct : other.Holds Distinct Distinct :=
    holds_ofJson? (n := 0) inherited_distinct (fun _ _ h _ => distinct_normalize h)
      (fun _ _ h _ => distinct_normalize h) (hprecise'.distinct hsound') other hj'
  exact Body.eq_of_text (legible_ofJson? hsound body hj) (legible_ofJson? hsound' other hj')
    (hdistinct.composed composed_distinct) heq

end Body

/-- **Round trip.** A body that is read from a value is read again from what is written of it, with
the members of objects sorted as in every value. So bodies that are read are told apart by their
texts, and a key, which hashes the text of a body and the option it is compiled under, is the same
for every choice of the hash functions only if both are the same. -/
theorem bodies_read_back :
    (∀ v : Json, v.IsValue → ∀ body, Body.ofJson? v = some body →
      Body.ofJson? body.toJson.normalize = some body) ∧
    ∀ body other : Body, body.FromJson → other.FromJson →
      (body ≠ other → body.toJson.text ≠ other.toJson.text) ∧
      ∀ (file : String) (localOnly localOnly' : Bool),
        (∀ h : Cache.Hashing,
          Cache.Key.ofBody h file body localOnly = Cache.Key.ofBody h file other localOnly') ↔
        body = other ∧ localOnly = localOnly' := by
  refine ⟨fun v hv body => Body.ofJson?_written hv.unique, fun body other h hother => ?_⟩
  have htext : body.toJson.text = other.toJson.text → body = other := fun heq =>
    hother.eq_of_text h heq
  refine ⟨fun hne heq => hne (htext heq), fun file localOnly localOnly' => ⟨fun hkeys => ?_, ?_⟩⟩
  · -- A hash that is one for the first pair and zero for all others tells whether they are the
    -- same.
    let telling : Cache.Hashing :=
      ⟨fun text option => if text = body.toJson.text ∧ option = localOnly then 1 else 0,
        fun _ => ""⟩
    have hkey := congrArg Cache.Key.fingerprint (hkeys telling)
    have hsame : other.toJson.text = body.toJson.text ∧ localOnly' = localOnly := by
      by_contra hne
      simp only [Cache.Key.ofBody, telling, and_self, if_true, if_neg hne] at hkey
      exact absurd hkey (by decide)
    exact ⟨htext hsame.1.symm, hsame.2.symm⟩
  · rintro ⟨rfl, rfl⟩ _
    rfl

/-- A method `m` with a parameter that is an array, and a malformed one that has a number. -/
def oddDocument : Json :=
  .obj [("name", .str "m"), ("kind", .str "method"), ("parameters", .obj [("parameters", .arr
    [.str "*a", .arr [.int 1, .str "b", .arr [.str "nil"]],
      .obj [("type", .int 9), ("name", .real true (Double.ofNat 5))]])])]

/-- The body that is read from it. -/
def oddBody : Body :=
  .callable .method "m" (some ⟨[.marker "*a", .optional "b" .nil {},
    .malformed (.obj [("name", .real true (Double.ofNat 5)), ("type", .int 9)])], {}⟩) {}

/-- The same method with a parameter `b` only. -/
def plainDocument : Json :=
  .obj [("kind", .str "method"), ("name", .str "m"), ("parameters", .arr [.arr [.str "b"]])]

/-- The body that is read from it. -/
def plainBody : Body := .callable .method "m" (some ⟨[.marker "b"], {}⟩) {}

/-- Its number is that of a member that no reader asks for. -/
theorem isValue_oddDocument : oddDocument.IsValue where
  sound := rfl
  unique := by simp [oddDocument, Json.Unique]
  precise := by simp [oddDocument, Json.Precise, Double.representable_ofNat]

/-- Nothing in it is a number. -/
theorem isValue_plainDocument : plainDocument.IsValue where
  sound := rfl
  unique := by simp [plainDocument, Json.Unique]
  precise := by simp [plainDocument, Json.Precise]

/-- Both bodies are read, one of them with its malformed node as it was, and they have different
texts and keys. -/
theorem odd_body_read_back : oddDocument.IsValue ∧ Body.ofJson? oddDocument = some oddBody ∧
    Body.ofJson? oddBody.toJson.normalize = some oddBody ∧ oddBody.FromJson ∧ plainBody.FromJson ∧
    oddBody ≠ plainBody ∧ oddBody.toJson.text ≠ plainBody.toJson.text ∧
    ¬∀ h : Cache.Hashing,
      Cache.Key.ofBody h "f" oddBody true = Cache.Key.ofBody h "f" plainBody true := by
  have hodd : Body.ofJson? oddDocument = some oddBody := rfl
  have hplain : Body.ofJson? plainDocument = some plainBody := rfl
  have hread := Body.FromJson.value isValue_oddDocument hodd
  have hother := Body.FromJson.value isValue_plainDocument hplain
  have hne : oddBody ≠ plainBody := by simp [oddBody, plainBody]
  obtain ⟨htexts, hkeys⟩ := bodies_read_back.2 oddBody plainBody hread hother
  exact ⟨isValue_oddDocument, hodd, bodies_read_back.1 oddDocument isValue_oddDocument oddBody hodd,
    hread, hother, hne, htexts hne, fun h => hne ((hkeys "f" true true).1 h).1⟩

end Formals
