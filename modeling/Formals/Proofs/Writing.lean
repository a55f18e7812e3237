import Formals.Proofs.Printing
import Formals.Tree.Reading
import Formals.Tree.Writing

/-!
# Different trees, different documents

An expression is read back as it was written (`Expr.read_toJson`). A malformed node is written as
the document that it was, which could be that of another node; a tree is `Legible` if no malformed
node in it is. So legible bodies are told apart by their documents (`Body.eq_of_toJson`), and by
their texts if nothing in the documents has the text of something else (`Body.eq_of_text`).

What the documents of trees are made of tells what holds of them (`Json.Composed`) as soon as it
holds of the documents of malformed nodes (`ParamNode.Holds`, `TargetNode.Holds`).
-/

namespace Formals

/-! ## Fields and tags -/

/-- An integer of 64 bits is in range for itself, so that a literal is read back. -/
theorem int64OfInt?_toInt (n : Int64) : int64OfInt? n.toInt = some n := by
  have hfits : FitsInt64 n.toInt := ⟨n.le_toInt, n.toInt_lt⟩
  rw [int64OfInt?, if_pos hfits, Int64.ofInt_toInt]

namespace Json

/-- A variant that is written with its tag in front. The record that is read is what stands behind
the tag, provided that no field of the record is called as the tag is. -/
theorem variant?_cons {tag name : String} {names : List String} (naming : Naming)
    {members : List (String × Json)} (hname : name ∈ names) (hmembers : ∀ m ∈ members, m.1 ≠ tag) :
    (obj ((tag, str name) :: members)).variant? tag names naming = some (name, obj members) := by
  have hrest : members.filter (fun m => m.1 == tag) = [] := by
    simpa using hmembers
  have hall : members.filter (fun m => m.1 != tag) = members := by
    simpa using hmembers
  simp [variant?, valuesOf, hrest, hall, tagged?, hname]

/-- Two objects with the same first field. The fields of equal documents are compared one by one
with it. -/
theorem obj_cons_inj {name : String} {a b : Json} {ms ns : List (String × Json)} :
    obj ((name, a) :: ms) = obj ((name, b) :: ns) ↔ a = b ∧ obj ms = obj ns := by
  simp

/-- A value that is not `null` is read. -/
theorem nullable?_of_ne {α : Type} (read : Json → Option α) {j : Json} (h : j ≠ null) :
    nullable? read j = (read j).map some := by
  cases j with
  | null => exact absurd rfl h
  | _ => rfl

/-- Nodes are equal if they are written alike and each of them is told apart from the others by its
document. -/
theorem eq_of_map_eq {α : Type} {write : α → Json} {nodes others : List α}
    (hapart : ∀ node ∈ nodes, ∀ other ∈ others, write other = write node → other = node)
    (h : others.map write = nodes.map write) : others = nodes := by
  induction nodes generalizing others with
  | nil => exact List.map_eq_nil_iff.1 h
  | cons node nodes ih =>
    cases others with
    | nil => cases h
    | cons other others =>
      obtain ⟨hfirst, hrest⟩ := List.cons.inj h
      rw [hapart node List.mem_cons_self other List.mem_cons_self hfirst,
        ih (fun n hn o ho => hapart n (.tail _ hn) o (.tail _ ho)) hrest]

/-- What may be missing is written as `null` if it is. It is told apart by its document if nothing
else is written as `null`, and if what is there is told apart by its document. -/
theorem eq_of_getD_null {α : Type} {write : α → Json} (hnull : ∀ x, write x ≠ null) {a b : Option α}
    (hapart : ∀ x ∈ a, ∀ y ∈ b, write x = write y → x = y)
    (h : (a.map write).getD null = (b.map write).getD null) : a = b := by
  cases a with
  | none =>
    cases b with
    | none => rfl
    | some y => exact absurd h.symm (hnull y)
  | some x =>
    cases b with
    | none => exact absurd h (hnull x)
    | some y => exact congrArg some (hapart x rfl y rfl h)

/-- A name that may be missing is written like everything that may be missing. -/
theorem ofString?_eq (s : Option String) : ofString? s = (s.map str).getD null := by
  cases s <;> rfl

/-- Different names are written differently, also if one of them is missing. -/
theorem ofString?_injective {a b : Option String} (h : ofString? a = ofString? b) : a = b :=
  eq_of_getD_null nofun (fun _ _ _ _ => str.inj) (by rwa [← ofString?_eq, ← ofString?_eq])

/-- A property that a document of a tree has if its parts have it. -/
structure Composed (C : Json → Prop) : Prop where
  null : C null
  int (n : Int) : C (int n)
  str (s : String) : C (str s)
  arr {items : List Json} : (∀ j ∈ items, C j) → C (arr items)
  obj {members : List (String × Json)} : (members.map (·.1)).Nodup → (∀ m ∈ members, C m.2) →
    C (obj members)

/-- What is asked of all parts of a document is composed, if it says nothing of the kinds of
documents that trees are written with, but for objects without repeated names. -/
theorem composed_throughout {P : Json → Prop} (null : P null) (int : ∀ n, P (int n))
    (str : ∀ s, P (str s)) (arr : ∀ items, P (arr items))
    (obj : ∀ members : List (String × Json), (members.map (·.1)).Nodup → P (obj members)) :
    Composed (Throughout P) where
  null := (throughout_leaf rfl).2 null
  int n := (throughout_leaf rfl).2 (int n)
  str s := (throughout_leaf rfl).2 (str s)
  arr h := throughout_arr.2 ⟨arr _, h⟩
  obj hnames h := throughout_obj.2 ⟨obj _ hnames, h⟩

/-- Whatever is written out has no two members of one name in any object: the writers name different
members by different tags. -/
theorem composed_distinct : Composed Distinct :=
  composed_throughout trivial (fun _ => trivial) (fun _ => trivial) (fun _ => trivial)
    fun _ _ => trivial

/-- Whatever is written out is a sound document, provided that the texts and the malformed nodes in
it are. -/
theorem composed_sound : Composed (·.sound = true) := by
  simpa only [sound_iff] using composed_throughout nofun (fun _ => nofun) (fun _ => nofun)
    (fun _ => nofun) fun _ _ => nofun

namespace Composed

variable {C : Json → Prop} (hC : Composed C)

include hC

/-- What may be missing is written as `null` if it is. -/
theorem getD_null {α : Type} {write : α → Json} {a : Option α} (h : ∀ x ∈ a, C (write x)) :
    C ((a.map write).getD .null) := by
  cases a with
  | none => exact hC.null
  | some x => exact h x rfl

/-- A text that may be missing is written as the text or as null. -/
theorem ofString? (s : Option String) : C (ofString? s) := by
  rw [ofString?_eq]
  exact hC.getD_null fun s _ => hC.str s

/-- A span is written with two numbers. -/
theorem span (s : Span) : C s.toJson :=
  hC.obj (by simp) (by simp [hC.int])

/-- A list of nodes is written with its nodes and its span. -/
theorem ofNodes {name : String} (hname : name ≠ "span") {nodes : List Json} (h : ∀ j ∈ nodes, C j)
    (span : Span) : C (ofNodes name nodes span) :=
  hC.obj (by simp [hname]) (by simp [hC.span, hC.arr h])

end Composed

end Json

/-- Different spans are written differently. -/
theorem Span.toJson_injective {s t : Span} (h : s.toJson = t.toJson) : s = t := by
  obtain ⟨start, length⟩ := s
  obtain ⟨start', length'⟩ := t
  simp only [Span.toJson, Json.obj.injEq, List.cons.injEq, Prod.mk.injEq, Json.int.injEq,
    true_and, and_true, Int.ofNat_inj] at h
  rw [UInt32.toNat_inj.1 h.1, UInt32.toNat_inj.1 h.2]

/-- Lists of nodes that are written alike have the same nodes, as documents, and the same span. -/
theorem Json.ofNodes_inj {name : String} {nodes nodes' : List Json} {span span' : Span}
    (h : ofNodes name nodes span = ofNodes name nodes' span') : nodes = nodes' ∧ span = span' := by
  simp only [ofNodes, obj_cons_inj, arr.injEq, and_true] at h
  exact ⟨h.1, Span.toJson_injective h.2⟩

/-! ## Expressions -/

namespace Expr

open Json

/-- An expression is never written as `null`, which stands for an expression that is missing. -/
theorem toJson_ne_null (e : Expr) : e.toJson ≠ .null := by
  cases e with
  | bool b => cases b <;> exact nofun
  | call receiver method arguments => cases receiver <;> exact nofun
  | _ => exact nofun

mutual
/-- An expression is read back as it was written. -/
theorem read_toJson (naming : Naming) : ∀ (e : Expr) (fuel : Nat), e.toJson.depth ≤ fuel →
    read naming (fuel + 1) e.toJson = some e
  | nil, _, _ | bool true, _, _ | bool false, _, _ | self, _, _ | str _, _, _ | sym _, _, _
  | localVar _, _, _ | instanceVar _, _, _ | globalVar _, _, _ => by
    rw [toJson, read, variant?_cons naming (by decide) (by simp)]
    rfl
  | int value, _, _ => by
    rw [toJson, read, variant?_cons naming (by decide) (by simp)]
    simp [fields?, valuesOf, required?, int64?, int64OfInt?_toInt]
  | array elements, fuel, h => by
    have hdepth : depthItems (listToJson elements) < fuel := by
      simp [toJson, depth, depthMembers] at h
      omega
    rw [toJson, read, variant?_cons naming (by decide) (by simp)]
    simp [fields?, valuesOf, optional?, list?, readList_toJson elements fuel hdepth]
  | hash pairs, fuel, h => by
    have hdepth : depthItems (pairsToJson pairs) < fuel := by
      simp [toJson, depth, depthMembers] at h
      omega
    rw [toJson, read, variant?_cons naming (by decide) (by simp)]
    change ((pairsToJson pairs).mapM _ >>= fun pairs => some (hash pairs)) = _
    rw [readPairs_toJson pairs fuel hdepth fun _ _ => rfl]
    rfl
  | call none method arguments, fuel, h => by
    have hdepth : depthItems (listToJson arguments) < fuel := by
      simp [toJson, depth, depthMembers] at h
      omega
    rw [toJson, read, variant?_cons naming (by decide) (by simp)]
    simp [fields?, valuesOf, optional?, required?, list?, nullable?, str?,
      readList_toJson arguments fuel hdepth]
  | call (some receiver) method arguments, fuel, h => by
    have hdepth : receiver.toJson.depth < fuel ∧ depthItems (listToJson arguments) < fuel := by
      simp [toJson, depth, depthMembers] at h
      omega
    obtain ⟨fuel, rfl⟩ : ∃ n, fuel = n + 1 := ⟨fuel - 1, by omega⟩
    have hreceiver := read_toJson .byNameOrPlace receiver fuel (by omega)
    rw [toJson, read, variant?_cons naming (by decide) (by simp)]
    simp [fields?, valuesOf, optional?, required?, list?, nullable?_of_ne _ receiver.toJson_ne_null,
      str?, hreceiver, readList_toJson arguments (fuel + 1) hdepth.2]

/-- Some expressions are read back as they were written, with fuel that exceeds the depth of each of
them. -/
theorem readList_toJson : ∀ (es : List Expr) (fuel : Nat), depthItems (listToJson es) < fuel →
    (listToJson es).mapM (read .byNameOrPlace fuel) = some es
  | [], _, _ => rfl
  | e :: rest, fuel, h => by
    simp only [listToJson, depthItems] at h
    obtain ⟨fuel, rfl⟩ : ∃ n, fuel = n + 1 := ⟨fuel - 1, by omega⟩
    rw [listToJson, List.mapM_cons, read_toJson .byNameOrPlace e fuel (by omega),
      readList_toJson rest (fuel + 1) (by omega)]
    rfl

/-- The pairs of a hash are read back as they were written, whichever reader of pairs it is that
reads key and value as expressions. -/
theorem readPairs_toJson {pair : Json → Option (Expr × Expr)} : ∀ (pairs : List (Expr × Expr))
    (fuel : Nat), depthItems (pairsToJson pairs) < fuel →
    (∀ key value, pair (.arr [key, value]) = do
      return (← read .byNameOrPlace fuel key, ← read .byNameOrPlace fuel value)) →
    (pairsToJson pairs).mapM pair = some pairs
  | [], _, _, _ => rfl
  | (key, value) :: rest, fuel, h, hpair => by
    simp only [pairsToJson, depthItems, depth] at h
    obtain ⟨fuel, rfl⟩ : ∃ n, fuel = n + 1 := ⟨fuel - 1, by omega⟩
    rw [pairsToJson, List.mapM_cons, hpair, read_toJson .byNameOrPlace key fuel (by omega),
      read_toJson .byNameOrPlace value fuel (by omega),
      readPairs_toJson rest (fuel + 1) (by omega) hpair]
    rfl
end

/-- Different expressions are written differently. -/
theorem toJson_injective {e e' : Expr} (h : e.toJson = e'.toJson) : e = e' := by
  have hread := read_toJson .byName e e.toJson.depth (Nat.le_refl _)
  rw [h, read_toJson .byName e' e'.toJson.depth (Nat.le_refl _)] at hread
  exact (Option.some.inj hread).symm

section

variable {C : Json → Prop}

mutual
/-- The document of an expression is composed of texts and whole numbers. -/
theorem composed_toJson (hC : Composed C) : ∀ e : Expr, C e.toJson
  | nil | bool true | bool false | self => hC.obj (by simp) (by simp [hC.str])
  | int _ => hC.obj (by simp) (by simp [hC.str, hC.int])
  | str _ | sym _ | localVar _ | instanceVar _ | globalVar _ =>
    hC.obj (by simp) (by simp [hC.str])
  | array elements =>
    hC.obj (by simp) (by simp [hC.str, hC.arr (composed_listToJson hC elements)])
  | hash pairs => hC.obj (by simp) (by simp [hC.str, hC.arr (composed_pairsToJson hC pairs)])
  | call none _ arguments =>
    hC.obj (by simp) (by simp [hC.str, hC.null, hC.arr (composed_listToJson hC arguments)])
  | call (some receiver) _ arguments =>
    hC.obj (by simp) (by simp [hC.str, composed_toJson hC receiver,
      hC.arr (composed_listToJson hC arguments)])

/-- The documents of some expressions are composed as that of one is. -/
theorem composed_listToJson (hC : Composed C) : ∀ es : List Expr, ∀ j ∈ listToJson es, C j
  | [] => nofun
  | e :: rest => List.forall_mem_cons.2 ⟨composed_toJson hC e, composed_listToJson hC rest⟩

/-- The documents of the pairs of a hash are composed as those of expressions are. -/
theorem composed_pairsToJson (hC : Composed C) :
    ∀ pairs : List (Expr × Expr), ∀ j ∈ pairsToJson pairs, C j
  | [] => nofun
  | (key, value) :: rest => by
    have hpair : C (.arr [key.toJson, value.toJson]) :=
      hC.arr (by simp [composed_toJson hC key, composed_toJson hC value])
    exact List.forall_mem_cons.2 ⟨hpair, composed_pairsToJson hC rest⟩
end

end

end Expr

/-- Different expressions are written differently, also if one of them is missing. -/
theorem Expr.toJson?_injective {a b : Option Expr}
    (h : (a.map toJson).getD .null = (b.map toJson).getD .null) : a = b :=
  Json.eq_of_getD_null toJson_ne_null (fun _ _ _ _ => toJson_injective) h

/-! ## Parameters -/

namespace ParamNode

open Json

/-- Nodes are written one by one. The writer descends through them by itself, since nodes hold lists
of nodes. -/
theorem listToJson_eq_map (nodes : List ParamNode) : listToJson nodes = nodes.map toJson := by
  induction nodes with
  | nil => rfl
  | cons node others ih => rw [listToJson, ih, List.map_cons]

mutual
/-- The documents of all malformed nodes in a parameter have a property. -/
def Holds (P : Json → Prop) : ParamNode → Prop
  | group children _ => AllHold P children
  | malformed raw => P raw
  | marker _ | required .. | optional .. | rest .. | keyword .. | keywordRest .. | attr .. => True

/-- The documents of all malformed nodes in some parameters have a property. -/
def AllHold (P : Json → Prop) : List ParamNode → Prop
  | [] => True
  | node :: others => node.Holds P ∧ AllHold P others
end

/-- No other parameter is written as a document without broken parts. -/
def WrittenAlone (raw : Json) : Prop :=
  raw.sound = true ∧ ∀ node : ParamNode, node.toJson = raw → node = malformed raw

/-- No malformed node in a parameter is written as another node is. -/
def Legible (node : ParamNode) : Prop := node.Holds WrittenAlone

section

variable {P Q : Json → Prop}

/-- Something holds of all malformed nodes among some nodes if it does in each of them. -/
theorem allHold_iff {nodes : List ParamNode} : AllHold P nodes ↔ ∀ node ∈ nodes, node.Holds P := by
  induction nodes with
  | nil => simp [AllHold]
  | cons node nodes ih => simp [AllHold, ih]

/-- The malformed nodes in a group are those in its children. -/
theorem holds_group {children : List ParamNode} {span : Span} :
    (group children span).Holds P ↔ ∀ child ∈ children, child.Holds P := allHold_iff

/-- What holds of all malformed nodes can be weakened. -/
theorem Holds.imp (himp : ∀ raw, P raw → Q raw) {node : ParamNode} (h : node.Holds P) :
    node.Holds Q := by
  induction node with
  | group children span ih =>
    exact holds_group.2 fun child hchild => ih child hchild (holds_group.1 h child hchild)
  | malformed raw => exact himp raw h
  | _ => trivial

/-- What holds of the documents of malformed nodes holds of the document of a parameter, if it holds
of a document whose parts have it. -/
theorem Holds.composed (hP : Composed P) {node : ParamNode} (h : node.Holds P) : P node.toJson := by
  induction node with
  | malformed raw => exact h
  | group children span ih =>
    have hchildren : ∀ j ∈ listToJson children, P j := by
      rw [listToJson_eq_map, List.forall_mem_map]
      exact fun child hchild => ih child hchild (holds_group.1 h child hchild)
    exact hP.obj (by simp) (by simp [hP.str, hP.span, hP.arr hchildren])
  | marker text => exact hP.str text
  | keyword name default span =>
    have hdefault := hP.getD_null fun e (_ : e ∈ default) => Expr.composed_toJson hP e
    exact hP.obj (by simp) (by simp [hP.str, hP.span, hdefault])
  | _ =>
    exact hP.obj (by simp) (by simp [hP.str, hP.span, hP.ofString?, Expr.composed_toJson hP])

end

/-- Legible parameters are told apart by their documents: by their tags, and by their fields if they
have one tag. Only a malformed node could be written as another one is, and is not. -/
theorem eq_of_toJson {node other : ParamNode} (h : node.Legible) (hother : other.Legible)
    (heq : other.toJson = node.toJson) : other = node := by
  induction node generalizing other with
  | malformed raw => exact h.2 other heq
  | group children span ih =>
    cases other with
    | group children' span' =>
      simp only [toJson, obj_cons_inj, arr.injEq, true_and, and_true, listToJson_eq_map] at heq
      have hchildren := eq_of_map_eq (fun child hchild child' hchild' =>
        ih child hchild (holds_group.1 h child hchild) (holds_group.1 hother child' hchild')) heq.1
      rw [hchildren, Span.toJson_injective heq.2]
    | malformed _ => exact (hother.2 _ heq.symm).symm
    | _ => simp [toJson] at heq
  | marker text =>
    cases other with
    | marker text' =>
      simp only [toJson, str.injEq] at heq
      rw [heq]
    | malformed _ => exact (hother.2 _ heq.symm).symm
    | _ => simp [toJson] at heq
  | required name span =>
    cases other with
    | required name' span' =>
      simp only [toJson, obj_cons_inj, str.injEq, true_and, and_true] at heq
      rw [heq.1, Span.toJson_injective heq.2]
    | malformed _ => exact (hother.2 _ heq.symm).symm
    | _ => simp [toJson] at heq
  | optional name default span =>
    cases other with
    | optional name' default' span' =>
      simp only [toJson, obj_cons_inj, str.injEq, true_and, and_true] at heq
      rw [heq.1, Expr.toJson_injective heq.2.1, Span.toJson_injective heq.2.2]
    | malformed _ => exact (hother.2 _ heq.symm).symm
    | _ => simp [toJson] at heq
  | rest name span =>
    cases other with
    | rest name' span' =>
      simp only [toJson, obj_cons_inj, true_and, and_true] at heq
      rw [ofString?_injective heq.1, Span.toJson_injective heq.2]
    | malformed _ => exact (hother.2 _ heq.symm).symm
    | _ => simp [toJson] at heq
  | keyword name default span =>
    cases other with
    | keyword name' default' span' =>
      simp only [toJson, obj_cons_inj, str.injEq, true_and, and_true] at heq
      rw [heq.1, Expr.toJson?_injective heq.2.1, Span.toJson_injective heq.2.2]
    | malformed _ => exact (hother.2 _ heq.symm).symm
    | _ => simp [toJson] at heq
  | keywordRest name span =>
    cases other with
    | keywordRest name' span' =>
      simp only [toJson, obj_cons_inj, true_and, and_true] at heq
      rw [ofString?_injective heq.1, Span.toJson_injective heq.2]
    | malformed _ => exact (hother.2 _ heq.symm).symm
    | _ => simp [toJson] at heq
  | attr receiver writer span =>
    cases other with
    | attr receiver' writer' span' =>
      simp only [toJson, obj_cons_inj, str.injEq, true_and, and_true] at heq
      rw [Expr.toJson_injective heq.1, heq.2.1, Span.toJson_injective heq.2.2]
    | malformed _ => exact (hother.2 _ heq.symm).symm
    | _ => simp [toJson] at heq

end ParamNode

/-! ## Targets -/

/-- Each kind of variable has its own tag. -/
theorem VariableKind.tag_injective {a b : VariableKind} (h : a.tag = b.tag) : a = b := by
  cases a <;> cases b <;> simp [tag] at h ⊢

namespace TargetNode

open Json

/-- Nodes are written one by one, as those of parameter lists are. -/
theorem listToJson_eq_map (nodes : List TargetNode) : listToJson nodes = nodes.map toJson := by
  induction nodes with
  | nil => rfl
  | cons node others ih => rw [listToJson, ih, List.map_cons]

mutual
/-- The documents of all malformed nodes in a target have a property, and none behind a splat is
written as if nothing were there. -/
def Holds (P : Json → Prop) : TargetNode → Prop
  | nested children _ => AllHold P children
  | splat (some target) _ => target.Holds P ∧ target.toJson ≠ .null
  | malformed raw => P raw
  | var .. | splat none _ | attr .. => True

/-- `Holds` of all of some targets. -/
def AllHold (P : Json → Prop) : List TargetNode → Prop
  | [] => True
  | node :: others => node.Holds P ∧ AllHold P others
end

/-- No other target is written as a document without broken parts. -/
def WrittenAlone (raw : Json) : Prop :=
  raw.sound = true ∧ ∀ node : TargetNode, node.toJson = raw → node = malformed raw

/-- No malformed node in a target is written as another node is, and none behind a splat as if
nothing were there. -/
def Legible (node : TargetNode) : Prop := node.Holds WrittenAlone

section

variable {P Q : Json → Prop}

/-- Something holds of all malformed nodes among some nodes if it does in each of them. -/
theorem allHold_iff {nodes : List TargetNode} : AllHold P nodes ↔ ∀ node ∈ nodes, node.Holds P := by
  induction nodes with
  | nil => simp [AllHold]
  | cons node nodes ih => simp [AllHold, ih]

/-- The malformed nodes in a list of targets are those in its children. -/
theorem holds_nested {children : List TargetNode} {span : Span} :
    (nested children span).Holds P ↔ ∀ child ∈ children, child.Holds P := allHold_iff

/-- What holds of all malformed nodes can be weakened. -/
theorem Holds.imp (himp : ∀ raw, P raw → Q raw) {node : TargetNode} (h : node.Holds P) :
    node.Holds Q := by
  induction node with
  | nested children span ih =>
    exact holds_nested.2 fun child hchild => ih child hchild (holds_nested.1 h child hchild)
  | splat target span ih =>
    cases target with
    | none => trivial
    | some target => exact ⟨ih target rfl h.1, h.2⟩
  | malformed raw => exact himp raw h
  | _ => trivial

/-- What holds of the documents of malformed nodes holds of the document of a target, if it holds of
a document whose parts have it. -/
theorem Holds.composed (hP : Composed P) {node : TargetNode} (h : node.Holds P) :
    P node.toJson := by
  induction node with
  | malformed raw => exact h
  | nested children span ih =>
    have hchildren : ∀ j ∈ listToJson children, P j := by
      rw [listToJson_eq_map, List.forall_mem_map]
      exact fun child hchild => ih child hchild (holds_nested.1 h child hchild)
    exact hP.obj (by simp) (by simp [hP.str, hP.span, hP.arr hchildren])
  | splat target span ih =>
    cases target with
    | none => exact hP.obj (by simp) (by simp [hP.str, hP.span, hP.null])
    | some target => exact hP.obj (by simp) (by simp [hP.str, hP.span, ih target rfl h.1])
  | _ => exact hP.obj (by simp) (by simp [hP.str, hP.span, Expr.composed_toJson hP])

end

/-- Legible targets are told apart by their documents: by their tags, and by their fields if they
have one tag. A splat with a target is not written as one without, since its target is not
`null`. -/
theorem eq_of_toJson {node other : TargetNode} (h : node.Legible) (hother : other.Legible)
    (heq : other.toJson = node.toJson) : other = node := by
  induction node generalizing other with
  | malformed raw => exact h.2 other heq
  | var kind name span =>
    cases other with
    | var kind' name' span' =>
      simp only [toJson, obj_cons_inj, str.injEq, and_true] at heq
      rw [VariableKind.tag_injective heq.1, heq.2.1, Span.toJson_injective heq.2.2]
    | splat target span => cases target <;> cases kind <;> simp [toJson, VariableKind.tag] at heq
    | malformed _ => exact (hother.2 _ heq.symm).symm
    | _ => cases kind <;> simp [toJson, VariableKind.tag] at heq
  | nested children span ih =>
    cases other with
    | nested children' span' =>
      simp only [toJson, obj_cons_inj, arr.injEq, true_and, and_true, listToJson_eq_map] at heq
      have hchildren := eq_of_map_eq (fun child hchild child' hchild' =>
        ih child hchild (holds_nested.1 h child hchild)
          (holds_nested.1 hother child' hchild')) heq.1
      rw [hchildren, Span.toJson_injective heq.2]
    | var kind name span => cases kind <;> simp [toJson, VariableKind.tag] at heq
    | splat target span => cases target <;> simp [toJson] at heq
    | malformed _ => exact (hother.2 _ heq.symm).symm
    | _ => simp [toJson] at heq
  | splat target span ih =>
    cases other with
    | splat target' span' =>
      cases target with
      | none =>
        cases target' with
        | none =>
          simp only [toJson, obj_cons_inj, true_and, and_true] at heq
          rw [Span.toJson_injective heq]
        | some target' =>
          simp only [toJson, obj_cons_inj, true_and, and_true] at heq
          exact absurd heq.1 hother.2
      | some target =>
        cases target' with
        | none =>
          simp only [toJson, obj_cons_inj, true_and, and_true] at heq
          exact absurd heq.1.symm h.2
        | some target' =>
          simp only [toJson, obj_cons_inj, true_and, and_true] at heq
          rw [ih target rfl h.1 hother.1 heq.1, Span.toJson_injective heq.2]
    | var kind name span => cases target <;> cases kind <;> simp [toJson, VariableKind.tag] at heq
    | malformed _ => exact (hother.2 _ heq.symm).symm
    | _ => cases target <;> simp [toJson] at heq
  | attr receiver writer span =>
    cases other with
    | attr receiver' writer' span' =>
      simp only [toJson, obj_cons_inj, str.injEq, true_and, and_true] at heq
      rw [Expr.toJson_injective heq.1, heq.2.1, Span.toJson_injective heq.2.2]
    | var kind name span => cases kind <;> simp [toJson, VariableKind.tag] at heq
    | splat target span => cases target <;> simp [toJson] at heq
    | malformed _ => exact (hother.2 _ heq.symm).symm
    | _ => simp [toJson] at heq

end TargetNode

/-! ## Bodies -/

/-- Each kind of body with parameters has its own tag. -/
theorem CallableKind.tag_injective {a b : CallableKind} (h : a.tag = b.tag) : a = b := by
  cases a <;> cases b <;> simp [tag] at h ⊢

namespace Body

open Json

/-- The documents of all malformed nodes in a body have a property, one for parameters and one for
targets. -/
def Holds (P Q : Json → Prop) : Body → Prop
  | callable _ _ params _ => ∀ list ∈ params, ∀ node ∈ list.nodes, node.Holds P
  | assignment _ targets _ => ∀ node ∈ targets.nodes, node.Holds Q

/-- No malformed node in a body is written as another node is. -/
def Legible : Body → Prop := Holds ParamNode.WrittenAlone TargetNode.WrittenAlone

section

variable {P Q P' Q' : Json → Prop}

/-- What holds of all malformed nodes of a body can be weakened, for the parameters and the targets
apart. -/
theorem Holds.imp (hP : ∀ raw, P raw → P' raw) (hQ : ∀ raw, Q raw → Q' raw) :
    ∀ {body : Body}, body.Holds P Q → body.Holds P' Q'
  | callable .., h => fun list hlist node hnode => (h list hlist node hnode).imp hP
  | assignment .., h => fun node hnode => (h node hnode).imp hQ

/-- What holds of the documents of malformed nodes holds of the document of a body, if it holds of a
document whose parts have it. -/
theorem Holds.composed (hP : Composed P) : ∀ {body : Body}, body.Holds P P → P body.toJson
  | callable _ _ params _, h => by
    have hparams : P ((params.map ParamList.toJson).getD .null) :=
      hP.getD_null fun list hlist => hP.ofNodes (by decide) (by
        rw [ParamNode.listToJson_eq_map, List.forall_mem_map]
        exact fun node hnode => (h list hlist node hnode).composed hP) _
    exact hP.obj (by simp) (by simp [hP.str, hP.span, hparams])
  | assignment _ targets _, h => by
    have htargets : P targets.toJson := hP.ofNodes (by decide) (by
      rw [TargetNode.listToJson_eq_map, List.forall_mem_map]
      exact fun node hnode => (h node hnode).composed hP) _
    exact hP.obj (by simp) (by simp [hP.str, hP.span, htargets])

end

/-- Nothing is broken in the document of a legible body. -/
theorem Legible.sound {body : Body} (h : body.Legible) : body.toJson.sound = true :=
  (Holds.imp (fun _ h => h.1) (fun _ h => h.1) h).composed composed_sound

/-- Legible bodies are told apart by their documents, since their nodes are. -/
theorem eq_of_toJson {body other : Body} (h : body.Legible) (hother : other.Legible)
    (heq : other.toJson = body.toJson) : other = body := by
  cases body with
  | callable kind name params span =>
    cases other with
    | assignment name' targets' span' => cases kind <;> simp [toJson, CallableKind.tag] at heq
    | callable kind' name' params' span' =>
      simp only [toJson, obj_cons_inj, str.injEq, and_true] at heq
      obtain ⟨hkind, hname, hparams, hspan⟩ := heq
      have hparams : params' = params := by
        have hshown : ∀ list : ParamList, list.toJson ≠ null := fun _ => nofun
        refine eq_of_getD_null hshown (fun list' hlist' list hlist hlists => ?_) hparams
        obtain ⟨hnodes, hspans⟩ := ofNodes_inj hlists
        rw [ParamNode.listToJson_eq_map, ParamNode.listToJson_eq_map] at hnodes
        have hnodes := eq_of_map_eq (fun node hnode other hother' =>
          ParamNode.eq_of_toJson (h list hlist node hnode)
          (hother list' hlist' other hother')) hnodes
        exact congr (congrArg ParamList.mk hnodes) hspans
      rw [CallableKind.tag_injective hkind, hname, hparams, Span.toJson_injective hspan]
  | assignment name targets span =>
    cases other with
    | callable kind' name' params' span' => cases kind' <;> simp [toJson, CallableKind.tag] at heq
    | assignment name' targets' span' =>
      simp only [toJson, obj_cons_inj, str.injEq, true_and, and_true] at heq
      obtain ⟨hname, htargets, hspan⟩ := heq
      obtain ⟨hnodes, hspans⟩ := ofNodes_inj htargets
      rw [TargetNode.listToJson_eq_map, TargetNode.listToJson_eq_map] at hnodes
      have hnodes := eq_of_map_eq (fun node hnode other hother' =>
        TargetNode.eq_of_toJson (h node hnode) (hother other hother')) hnodes
      rw [hname, show targets' = targets from congr (congrArg TargetList.mk hnodes) hspans,
        Span.toJson_injective hspan]

/-- **Bodies.** Legible bodies are told apart by their texts if one of the documents has no text of
another. -/
theorem eq_of_text {body other : Body} (h : body.Legible) (hother : other.Legible)
    (hdistinct : other.toJson.Distinct) (heq : other.toJson.text = body.toJson.text) :
    other = body :=
  eq_of_toJson h hother (Json.eq_of_text hdistinct h.sound heq)

end Body

end Formals
