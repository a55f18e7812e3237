import Formals.Proofs.Writing

/-!
# What is read is legible

What holds of a document and its parts holds of the documents of the malformed nodes that are read
from it (`ParamNode.holds_read`, `TargetNode.holds_read`, `Body.holds_ofJson?`). A malformed node
keeps the members of its document sorted, while those of every other node begin with its tag, which
would not come first. So the bodies that are read are legible (`Body.legible_ofJson?`), and those of
a unit are read from parts of its text (`CompilationUnit.exists_document`).
-/

namespace Formals

namespace Json

/-! ## Records -/

/-- What is read, if anything, has a property. Readers are put together from the following, and what
they give is found by going through them in the same way. -/
def Gives {α : Type} (x : Option α) (P : α → Prop) : Prop := ∀ a, x = some a → P a

section

variable {α β : Type} {P : β → Prop}

/-- A reader that fails gives nothing of which something had to hold. -/
theorem gives_none : Gives none P := nofun

/-- A reader that has nothing left to read gives what it is asked for. -/
theorem gives_pure {b : β} (h : P b) : Gives (pure b) P := by
  intro a ha
  cases ha
  exact h

/-- A reader that goes on after another one gives what it gives for what the other one reads. -/
theorem gives_bind {x : Option α} {f : α → Option β} (h : ∀ a, x = some a → Gives (f a) P) :
    Gives (x >>= f) P := by
  intro b hb
  obtain ⟨a, ha, hb⟩ := Option.bind_eq_some_iff.1 hb
  exact h a ha b hb

/-- What is read and then changed has a property if what is read has it after the change. -/
theorem gives_map {x : Option α} {f : α → β} (h : Gives x fun a => P (f a)) :
    Gives (x.map f) P := by
  intro b hb
  obtain ⟨a, ha, rfl⟩ := Option.map_eq_some_iff.1 hb
  exact h a ha

/-- Where nothing is read, something else takes its place. -/
theorem gives_getD {x : Option β} {b : β} (h : Gives x P) (hb : x = none → P b) : P (x.getD b) := by
  cases x with
  | none => exact hb rfl
  | some a => exact h a rfl

end

/-- What is read from each of some items is read from one of them. -/
theorem exists_of_mem_mapM {α β : Type} {f : α → Option β} {xs : List α} {ys : List β}
    (h : xs.mapM f = some ys) : ∀ y ∈ ys, ∃ x ∈ xs, f x = some y := by
  induction xs generalizing ys with
  | nil =>
    cases h
    exact nofun
  | cons x xs ih =>
    rw [List.mapM_cons] at h
    obtain ⟨y, hy, h⟩ := Option.bind_eq_some_iff.1 h
    obtain ⟨rest, hrest, h⟩ := Option.bind_eq_some_iff.1 h
    cases h
    intro z hz
    rcases List.mem_cons.1 hz with rfl | hz
    · exact ⟨x, List.mem_cons_self, hy⟩
    · obtain ⟨x', hx', hz⟩ := ih hrest z hz
      exact ⟨x', List.mem_cons_of_mem _ hx', hz⟩

/-- A property of documents, under a bound of their depth, that all parts of a document have with
it. -/
structure Inherited (C : Nat → Json → Prop) : Prop where
  item {fuel : Nat} {items : List Json} {j : Json} :
    C (fuel + 1) (arr items) → j ∈ items → C fuel j
  member {fuel : Nat} {members : List (String × Json)} {m : String × Json} :
    C (fuel + 1) (obj members) → m ∈ members → C fuel m.2
  /-- The record of a variant lacks the tag. -/
  untag {fuel : Nat} {tag : Json} {items : List Json} :
    C fuel (arr (tag :: items)) → C fuel (arr items)
  filter {fuel : Nat} {members : List (String × Json)} (p : String × Json → Bool) :
    C fuel (obj members) → C fuel (obj (members.filter p))
  succ {fuel : Nat} {j : Json} : C fuel j → C (fuel + 1) j
  own {fuel : Nat} {j : Json} : C fuel j → C (j.depth + 1) j

/-- What is asked of all parts of a document is inherited, if it is kept when members or the first
item are left out. -/
theorem inherited_throughout {P : Json → Prop}
    (untag : ∀ tag items, P (arr (tag :: items)) → P (arr items))
    (filter : ∀ members p, P (obj members) → P (obj (members.filter p))) :
    Inherited fun _ j => j.Throughout P where
  item h hj := (throughout_arr.1 h).2 _ hj
  member h hm := (throughout_obj.1 h).2 _ hm
  untag h :=
    have ⟨hown, hitems⟩ := throughout_arr.1 h
    throughout_arr.2 ⟨untag _ _ hown, fun j hj => hitems j (.tail _ hj)⟩
  filter p h :=
    have ⟨hown, hvalues⟩ := throughout_obj.1 h
    throughout_obj.2 ⟨filter _ p hown, fun m hm => hvalues m (List.mem_filter.1 hm).1⟩
  succ h := h
  own h := h

/-- The parts of a sound document are sound. -/
theorem inherited_sound : Inherited fun _ j => j.sound = true := by
  simpa only [sound_iff] using inherited_throughout (fun _ _ _ => nofun) fun _ _ _ => nofun

/-- The depth of documents is inherited, as their bound is one less for their parts. -/
theorem inherited_depth : Inherited fun fuel j => j.depth < fuel where
  item h hj := by
    have := depthItems_le_iff.1 (Nat.le_refl _) _ hj
    rw [depth] at h
    omega
  member h hm := by
    have := depthMembers_le_iff.1 (Nat.le_refl _) _ hm
    rw [depth] at h
    omega
  untag h := by
    rw [depth, depthItems] at h
    rw [depth]
    omega
  filter {fuel members} p h := by
    have : depthMembers (members.filter p) ≤ depthMembers members :=
      depthMembers_le_iff.2 fun m hm =>
        depthMembers_le_iff.1 (Nat.le_refl _) m (List.mem_filter.1 hm).1
    rw [depth] at h ⊢
    omega
  succ h := Nat.lt_succ_of_lt h
  own _ := Nat.lt_succ_self _

/-- Two properties that all parts have are one. -/
theorem Inherited.and {C D : Nat → Json → Prop} (hC : Inherited C) (hD : Inherited D) :
    Inherited fun n j => C n j ∧ D n j where
  item h hj := ⟨hC.item h.1 hj, hD.item h.2 hj⟩
  member h hm := ⟨hC.member h.1 hm, hD.member h.2 hm⟩
  untag h := ⟨hC.untag h.1, hD.untag h.2⟩
  filter p h := ⟨hC.filter p h.1, hD.filter p h.2⟩
  succ h := ⟨hC.succ h.1, hD.succ h.2⟩
  own h := ⟨hC.own h.1, hD.own h.2⟩

namespace Inherited

variable {C : Nat → Json → Prop} (hC : Inherited C) {n : Nat}

include hC

/-- What is inherited goes down to the fields of a record. -/
theorem of_fields? {names : List String} {record : Json} {fields : List (Option Json)}
    (hrecord : C (n + 1) record) (h : record.fields? names = some fields) :
    ∀ j, some j ∈ fields → C n j := by
  intro j hj
  cases record with
  | obj members =>
    obtain ⟨name, -, hname⟩ := exists_of_mem_mapM h _ hj
    have hvalue : j ∈ valuesOf name members := by
      revert hname
      cases hvalues : valuesOf name members with
      | nil => exact nofun
      | cons value rest =>
        cases rest with
        | nil =>
          intro hname
          cases hname
          exact List.mem_singleton.2 rfl
        | cons other rest => exact nofun
    obtain ⟨m, hm, rfl⟩ := List.mem_map.1 hvalue
    exact hC.member hrecord (List.mem_filter.1 hm).1
  | arr items =>
    simp only [fields?] at h
    split at h
    · cases h
      rcases List.mem_append.1 hj with hj | hj
      · obtain ⟨_, hitem, heq⟩ := List.mem_map.1 hj
        cases heq
        exact hC.item hrecord hitem
      · cases (List.mem_replicate.1 hj).2
    · cases h
  | _ => cases h

/-- What is inherited goes down to the record of a variant. -/
theorem of_variant? {tag name : String} {names : List String} {naming : Naming}
    {j record : Json} (hj : C n j)
    (h : j.variant? tag names naming = some (name, record)) : C n record := by
  cases j with
  | obj members =>
    simp only [variant?] at h
    split at h
    · obtain ⟨_, -, heq⟩ := Option.map_eq_some_iff.1 h
      cases heq
      exact hC.filter _ hj
    · cases h
  | arr items =>
    cases items with
    | nil => cases h
    | cons first items =>
      obtain ⟨_, -, heq⟩ := Option.map_eq_some_iff.1 h
      cases heq
      exact hC.untag hj
  | _ => cases h

/-- What is inherited goes down to the items that a list is read from. -/
theorem of_list? {α : Type} {item : Json → Option α} {j : Json} {values : List α}
    (hj : C n j) (h : j.list? item = some values) :
    ∀ a ∈ values, ∃ j, C n j ∧ item j = some a := by
  cases j with
  | arr items =>
    intro a ha
    obtain ⟨j, hmem, hread⟩ := exists_of_mem_mapM h a ha
    exact ⟨j, hC.item (hC.succ hj) hmem, hread⟩
  | _ => cases h

/-- What is inherited goes down to the nodes of a list. So what holds of every node that is read
from a document with the property holds of the nodes of a list that is. -/
theorem gives_nodes? {α : Type} {name : String} {node : Json → α} {P : α → Prop} {j : Json}
    (hnode : ∀ item : Json, C (item.depth + 1) item → P (node item)) (hj : C n j) :
    Gives (j.nodes? name node) fun list => ∀ a ∈ list.1, P a := by
  refine gives_bind fun fields hfields => ?_
  split
  · rename_i nodes span
    refine gives_bind fun read hread => gives_bind fun _ _ => gives_pure ?_
    cases nodes with
    | none =>
      cases hread
      exact nofun
    | some nodes =>
      intro a ha
      have hnodes := hC.of_fields? (hC.own hj) hfields nodes List.mem_cons_self
      obtain ⟨item, hitem, heq⟩ := hC.of_list? hnodes hread a ha
      cases heq
      exact hnode item (hC.own hitem)
  · exact gives_none

end Inherited

/-! ## Sorted members -/

/-- A document that is a string when it is sorted is one. -/
theorem normalize_eq_str {j : Json} {text : String} (h : j.normalize = str text) :
    j = str text := by
  cases j <;> simp_all [normalize]

/-- The members of a document that is kept ascend. -/
theorem lt_of_normalize {j v w : Json} {a b : String} {rest : List (String × Json)}
    (h : j.normalize = obj ((a, v) :: (b, w) :: rest)) : a < b := by
  cases j with
  | obj members =>
    have hsorted := ascending_sortMembers (normalizeMembers members)
    rw [obj.inj h] at hsorted
    exact (List.pairwise_cons.1 hsorted).1 (b, w) List.mem_cons_self
  | _ => cases h

end Json

/-! ## Parameters -/

namespace ParamNode

open Json

/-- No parameter but the malformed one is written as a document that is kept, unless that is a
string. -/
theorem eq_malformed_of_normalize {j : Json} (hj : ∀ text, j ≠ .str text) {node : ParamNode}
    (h : node.toJson = j.normalize) : node = malformed j.normalize := by
  cases node with
  | malformed raw => exact congrArg malformed h
  | marker text => exact absurd (normalize_eq_str h.symm) (hj text)
  | _ => exact absurd (lt_of_normalize h.symm) (by decide)

/-- Every string is read as a marker, and so is never malformed. -/
theorem read_str (fuel : Nat) (text : String) : read fuel (.str text) = marker text := by
  cases fuel <;> rfl

/-- A malformed node that is read is written as no other node. -/
theorem writtenAlone_of_read {fuel : Nat} {j : Json} (hsound : j.sound = true)
    (h : read fuel j = malformed j.normalize) : WrittenAlone j.normalize := by
  refine ⟨sound_normalize hsound, fun _ => eq_malformed_of_normalize ?_⟩
  rintro text rfl
  rw [read_str] at h
  cases h

section

variable {C : Nat → Json → Prop} (hC : Inherited C) {P : Json → Prop}
  (hmalformed : ∀ fuel j, C fuel j → read fuel j = malformed j.normalize → P j.normalize)

include hC hmalformed

/-- What is known of malformed nodes holds in a parameter that is read. -/
theorem holds_read (fuel : Nat) : ∀ j : Json, C fuel j → (read fuel j).Holds P := by
  induction fuel with
  | zero =>
    intro j hj
    cases j with
    | str text => trivial
    | _ => exact hmalformed 0 _ hj rfl
  | succ fuel ih =>
    intro j hj
    by_cases hstr : ∃ text, j = .str text
    · obtain ⟨text, rfl⟩ := hstr
      trivial
    · have hstr : ∀ text, j ≠ .str text := fun text h => hstr ⟨text, h⟩
      suffices hread : (read (fuel + 1) j = malformed j.normalize → P j.normalize) →
          (read (fuel + 1) j).Holds P from hread (hmalformed (fuel + 1) j hj)
      rw [read]
      · intro hnone
        refine gives_getD (gives_bind ?_) fun h => hnone (by rw [h]; rfl)
        rintro ⟨tag, record⟩ hfound
        have hrecord := hC.of_variant? hj hfound
        simp only
        split
        case h_6 =>
          refine gives_bind fun fields hfields => ?_
          split
          case h_1 =>
            refine gives_bind fun children hchildren => gives_bind fun span _ => gives_pure ?_
            obtain ⟨parameters, hparameters, hlist⟩ := Option.bind_eq_some_iff.1 hchildren
            have hparts := hC.of_fields? hrecord hfields parameters
              (hparameters ▸ List.mem_cons_self)
            refine holds_group.2 fun child hchild => ?_
            obtain ⟨item, hitem, hread⟩ := hC.of_list? hparts hlist child hchild
            cases hread
            exact ih item hitem
          case h_2 => exact gives_none
        case h_1 | h_3 | h_5 =>
          refine gives_bind fun fields _ => ?_
          split
          · exact gives_bind fun _ _ => gives_bind fun _ _ => gives_pure trivial
          · exact gives_none
        case h_2 | h_4 | h_7 =>
          refine gives_bind fun fields _ => ?_
          split
          · exact gives_bind fun _ _ => gives_bind fun _ _ => gives_bind fun _ _ =>
              gives_pure trivial
          · exact gives_none
        case h_8 => exact gives_none
      · exact hstr

end

end ParamNode

/-- What is known of malformed nodes holds in a list of parameters that is read. -/
theorem ParamList.holds_ofJson? {C : Nat → Json → Prop} (hC : Json.Inherited C) {P : Json → Prop}
    (hmalformed : ∀ fuel j, C fuel j → ParamNode.read fuel j = .malformed j.normalize →
      P j.normalize) {fuel : Nat} {j : Json} (hj : C fuel j) :
    Json.Gives (ParamList.ofJson? j) fun list => ∀ node ∈ list.nodes, node.Holds P :=
  Json.gives_map (hC.gives_nodes? (fun _ => ParamNode.holds_read hC hmalformed _ _) hj)

/-! ## Targets -/

namespace TargetNode

open Json

/-- No target but the malformed one is written as a document that is kept. -/
theorem eq_malformed_of_normalize {j : Json} {node : TargetNode}
    (h : node.toJson = j.normalize) : node = malformed j.normalize := by
  cases node with
  | malformed raw => exact congrArg malformed h
  | splat target span =>
    cases target <;> exact absurd (lt_of_normalize h.symm) (by decide)
  | _ => exact absurd (lt_of_normalize h.symm) (by decide)

/-- A malformed node that is read is written as no other node. -/
theorem writtenAlone_normalize {j : Json} (hsound : j.sound = true) : WrittenAlone j.normalize :=
  ⟨sound_normalize hsound, fun _ => eq_malformed_of_normalize⟩

/-- Sorting makes no document `null`. -/
theorem normalize_ne_null {j : Json} (h : j ≠ .null) : j.normalize ≠ .null := by
  cases j with
  | null => exact absurd rfl h
  | _ => exact nofun

section

variable {C : Nat → Json → Prop} (hC : Inherited C) {P : Json → Prop}
  (hmalformed : ∀ fuel j, C fuel j → read fuel j = malformed j.normalize → P j.normalize)

include hC hmalformed

/-- What is known of malformed nodes holds in a target that is read, and it is written as `null`
only if `null` is read. -/
theorem holds_read (fuel : Nat) : ∀ j : Json, C fuel j →
    (read fuel j).Holds P ∧ (j ≠ .null → (read fuel j).toJson ≠ .null) := by
  induction fuel with
  | zero => exact fun j hj => ⟨hmalformed 0 j hj rfl, normalize_ne_null⟩
  | succ fuel ih =>
    intro j hj
    have hnone := hmalformed (fuel + 1) j hj
    rw [read] at hnone ⊢
    refine gives_getD (P := fun node : TargetNode => node.Holds P ∧
      (j ≠ .null → node.toJson ≠ .null))
      (gives_bind ?_) fun h => ⟨hnone (by rw [h]; rfl), normalize_ne_null⟩
    rintro ⟨tag, record⟩ hfound
    have hrecord := hC.of_variant? hj hfound
    simp only
    split
    case h_1 | h_2 | h_3 =>
      refine gives_bind fun fields _ => ?_
      split
      · exact gives_bind fun _ _ => gives_bind fun _ _ => gives_pure ⟨trivial, nofun⟩
      · exact gives_none
    case h_4 =>
      refine gives_bind fun fields hfields => ?_
      split
      · refine gives_bind fun children hchildren => gives_bind fun span _ => gives_pure ⟨?_, nofun⟩
        obtain ⟨targets, htargets, hlist⟩ := Option.bind_eq_some_iff.1 hchildren
        have hparts := hC.of_fields? hrecord hfields targets (htargets ▸ List.mem_cons_self)
        refine holds_nested.2 fun child hchild => ?_
        obtain ⟨item, hitem, hread⟩ := hC.of_list? hparts hlist child hchild
        cases hread
        exact (ih item hitem).1
      · exact gives_none
    case h_5 =>
      refine gives_bind fun fields hfields => ?_
      split
      · rename_i field span
        refine gives_bind fun target htarget => gives_bind fun span _ => gives_pure ?_
        cases target with
        | none => exact ⟨trivial, nofun⟩
        | some target =>
          cases field with
          | none => cases htarget
          | some item =>
            have hpart := hC.of_fields? hrecord hfields item List.mem_cons_self
            by_cases hnull : item = .null
            · subst hnull
              cases htarget
            · simp only [optional?, nullable?_of_ne _ hnull] at htarget
              cases htarget
              exact ⟨⟨(ih item hpart).1, (ih item hpart).2 hnull⟩, nofun⟩
      · exact gives_none
    case h_6 =>
      refine gives_bind fun fields _ => ?_
      split
      · exact gives_bind fun _ _ => gives_bind fun _ _ => gives_bind fun _ _ =>
          gives_pure ⟨trivial, nofun⟩
      · exact gives_none
    case h_7 => exact gives_none

end

end TargetNode

/-- What is known of malformed nodes holds in a list of targets that is read. -/
theorem TargetList.holds_ofJson? {C : Nat → Json → Prop} (hC : Json.Inherited C) {P : Json → Prop}
    (hmalformed : ∀ fuel j, C fuel j → TargetNode.read fuel j = .malformed j.normalize →
      P j.normalize) {fuel : Nat} {j : Json} (hj : C fuel j) :
    Json.Gives (TargetList.ofJson? j) fun list => ∀ node ∈ list.nodes, node.Holds P :=
  Json.gives_map (hC.gives_nodes?
    (fun _ hitem => (TargetNode.holds_read hC hmalformed _ _ hitem).1) hj)

/-! ## Bodies and units -/

namespace Body

open Json

section

variable {C : Nat → Json → Prop} (hC : Inherited C) {P Q : Json → Prop}
  (hparam : ∀ fuel j, C fuel j → ParamNode.read fuel j = .malformed j.normalize → P j.normalize)
  (htarget : ∀ fuel j, C fuel j → TargetNode.read fuel j = .malformed j.normalize → Q j.normalize)
  {n : Nat}

include hC

include hparam in
/-- What is known of malformed nodes holds in a body with parameters that is read. -/
theorem holds_readCallable {kind : CallableKind} {record : Json} (hrecord : C n record) :
    Gives (readCallable kind record) (Holds P Q) := by
  refine gives_bind fun fields hfields => ?_
  split
  · rename_i name parameters span
    refine gives_bind fun _ _ => gives_bind fun params hparams => gives_bind fun _ _ =>
      gives_pure ?_
    intro list hlist
    cases parameters with
    | none =>
      cases hparams
      cases hlist
    | some item =>
      have hpart := hC.of_fields? (hC.own hrecord) hfields item (.tail _ (.head _))
      by_cases hnull : item = .null
      · subst hnull
        cases hparams
        cases hlist
      · simp only [optional?, nullable?_of_ne _ hnull] at hparams
        obtain ⟨list', hlist', heq⟩ := Option.map_eq_some_iff.1 hparams
        subst heq
        cases hlist
        exact ParamList.holds_ofJson? hC hparam hpart _ hlist'
  · exact gives_none

include hparam htarget in
/-- What is known of malformed nodes holds in a body that is read. -/
theorem holds_ofJson? {j : Json} (hj : C n j) : Gives (ofJson? j) (Holds P Q) := by
  refine gives_bind ?_
  rintro ⟨tag, record⟩ hfound
  have hrecord := hC.of_variant? hj hfound
  simp only
  split
  case h_1 | h_2 | h_3 => exact holds_readCallable hC hparam hrecord
  case h_4 =>
    refine gives_bind fun fields hfields => ?_
    split
    · rename_i name targets span
      refine gives_bind fun _ _ => gives_bind fun list hlist => gives_bind fun _ _ => gives_pure ?_
      obtain ⟨item, hitem, hread⟩ := Option.bind_eq_some_iff.1 hlist
      have hpart := hC.of_fields? (hC.own hrecord) hfields item (hitem ▸ .tail _ (.head _))
      exact TargetList.holds_ofJson? hC htarget hpart list hread
    · exact gives_none
  case h_5 => exact gives_none

end

/-- A body that is read is legible. -/
theorem legible_ofJson? {j : Json} (hj : j.sound = true) : Gives (ofJson? j) Legible :=
  fun body hbody => holds_ofJson? inherited_sound
    (fun _ _ hsound => ParamNode.writtenAlone_of_read hsound)
    (fun _ _ hsound _ => TargetNode.writtenAlone_normalize hsound) (n := 0) hj body hbody

end Body

/-- The bodies of a unit are read from parts of its text without broken pieces. -/
theorem CompilationUnit.exists_document {C : Nat → Json → Prop} (hC : Json.Inherited C) {n : Nat}
    {text : String} (hparse : ∀ j, Json.parse text = some j → C n j) {unit : CompilationUnit}
    (h : CompilationUnit.ofText? text = some unit) :
    ∀ body ∈ unit.bodies, ∃ j, C n j ∧ j.sound = true ∧ Body.ofJson? j = some body := by
  suffices hgives : Json.Gives (CompilationUnit.ofText? text) fun unit =>
      ∀ body ∈ unit.bodies, ∃ j, C n j ∧ j.sound = true ∧ Body.ofJson? j = some body from
    hgives unit h
  refine Json.gives_bind fun j hj => Json.gives_bind fun fields hfields => ?_
  split
  · rename_i fileName bodies
    simp only
    split
    case isTrue hknown =>
      refine Json.gives_bind fun _ _ => Json.gives_bind fun read hread => Json.gives_pure ?_
      intro body hbody
      cases bodies with
      | none =>
        cases hread
        cases hbody
      | some item =>
        have hitem := hC.of_fields? (hC.succ (hparse j hj)) hfields item (.tail _ (.head _))
        have hreadable := (Bool.and_eq_true_iff.1 hknown).2
        have hsound := (Bool.and_eq_true_iff.1 hreadable).2
        obtain ⟨document, ⟨hdocument, hdocumentSound⟩, hofJson⟩ :=
          (hC.and Json.inherited_sound).of_list? ⟨hitem, hsound⟩ hread body hbody
        exact ⟨document, hdocument, hdocumentSound, hofJson⟩
    case isFalse => exact Json.gives_none
  · exact Json.gives_none

end Formals
