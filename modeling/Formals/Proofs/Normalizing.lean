import Formals.Proofs.Reading

/-!
# Sorted documents are read alike

No reader minds the order of members. So where no object has two members of one name
(`Json.Unique`), the sorted document is read as the document itself is, and more fuel than its depth
changes nothing (`Body.ofJson?_normalize`).
-/

namespace Formals

namespace Json

/-! ## Names that are not repeated -/

/-- No object in a document has two members of one name. -/
def Unique (j : Json) : Prop := j.Throughout fun
  | obj members => (members.map (·.1)).Nodup
  | _ => True

/-- In an object without repeated names neither its own members nor those of a document in it share
a name. -/
theorem unique_obj {members : List (String × Json)} : (obj members).Unique ↔
    (members.map (·.1)).Nodup ∧ ∀ m ∈ members, m.2.Unique := throughout_obj

/-- Whatever is written out has no repeated names: the names of the members that a writer puts in
one object differ. -/
theorem composed_unique : Composed Unique :=
  composed_throughout trivial (fun _ => trivial) (fun _ => trivial) (fun _ => trivial)
    fun _ hnames => hnames

/-- The parts of a document without repeated names have none, and neither has what is left of the
members behind a tag. -/
theorem inherited_unique : Inherited fun _ j => j.Unique :=
  inherited_throughout (fun _ _ _ => trivial) fun _ _ hnames =>
    hnames.sublist (List.filter_sublist.map _)

/-- A document without repeated names of a depth below a bound. -/
def Within (fuel : Nat) (j : Json) : Prop := j.Unique ∧ j.depth < fuel

/-- The parts of a document without repeated names have none, and each of them is less deep than the
document. -/
theorem inherited_within : Inherited Within := inherited_unique.and inherited_depth

/-! ## Sorting -/

/-- A member with a new name is added to the others. One with the name of another would take its
place instead. -/
theorem insertMember_perm {name : String} {value : Json} {members : List (String × Json)}
    (h : name ∉ members.map (·.1)) :
    (insertMember name value members).Perm ((name, value) :: members) := by
  induction members with
  | nil => exact List.Perm.refl _
  | cons first rest ih =>
    obtain ⟨n, v⟩ := first
    rw [List.map_cons, List.mem_cons, not_or] at h
    rw [insertMember, if_neg h.1]
    split
    · exact List.Perm.refl _
    · exact ((ih h.2).cons _).trans (List.Perm.swap ..)

/-- Members of different names are only put in order. -/
theorem sortMembers_perm {members : List (String × Json)} (h : (members.map (·.1)).Nodup) :
    (sortMembers members).Perm members := by
  have hfold : ∀ rest sorted : List (String × Json), ((sorted ++ rest).map (·.1)).Nodup →
      (rest.foldl (fun sorted m => insertMember m.1 m.2 sorted) sorted).Perm (sorted ++ rest) := by
    intro rest
    induction rest with
    | nil => intro sorted _; rw [List.append_nil]; exact List.Perm.refl _
    | cons m rest ih =>
      intro sorted hnames
      have hmiddle : (sorted ++ m :: rest).Perm (m :: sorted ++ rest) := List.perm_middle
      have hfront := (hmiddle.map (·.1)).nodup_iff.1 hnames
      have hfresh : m.1 ∉ sorted.map (·.1) := fun hm =>
        (List.nodup_cons.1 hfront).1 (List.map_append ▸ List.mem_append_left _ hm)
      have hinsert := (@insertMember_perm m.1 m.2 _ hfresh).append_right rest
      exact (ih _ ((hinsert.map (·.1)).nodup_iff.2 hfront)).trans (hinsert.trans hmiddle.symm)
  exact hfold members [] h

/-- There is one order of the members. -/
theorem Ascending.eq_of_perm {members others : List (String × Json)} (h : Ascending members)
    (hothers : Ascending others) (hperm : members.Perm others) : members = others :=
  hperm.eq_of_pairwise
    (fun _ _ _ _ hlt hgt => absurd (String.lt_trans hlt hgt) (String.lt_irrefl _))
    h hothers

section

variable {members : List (String × Json)} (h : (members.map (·.1)).Nodup)

include h

/-- There is at most one value under a name. The readers refuse a field that is given twice, and so
have nothing to refuse here. -/
theorem length_valuesOf (name : String) : (valuesOf name members).length ≤ 1 := by
  induction members with
  | nil => exact Nat.zero_le 1
  | cons m rest ih =>
    obtain ⟨hfirst, hrest⟩ := List.nodup_cons.1 h
    rw [valuesOf, List.filter_cons]
    split
    case isTrue heq =>
      have hnone : rest.filter (fun m => m.1 == name) = [] :=
        List.filter_eq_nil_iff.2 fun n hn hname =>
          hfirst (List.mem_map.2 ⟨n, hn, (beq_iff_eq.1 hname).trans (beq_iff_eq.1 heq).symm⟩)
      rw [hnone]
      exact Nat.le_refl 1
    case isFalse => exact ih hrest

/-- Sorting the members leaves the values under a name. -/
theorem valuesOf_sortMembers (name : String) :
    valuesOf name (sortMembers members) = valuesOf name members := by
  have hperm : (valuesOf name (sortMembers members)).Perm (valuesOf name members) :=
    ((sortMembers_perm h).filter _).map _
  have hlength := length_valuesOf h name
  revert hperm hlength
  cases valuesOf name members with
  | nil => exact fun hperm _ => hperm.eq_nil
  | cons value others =>
    cases others with
    | nil => exact fun hperm _ => hperm.eq_singleton
    | cons other others => exact fun _ hlength => absurd hlength (by simp)

/-- Members may be dropped before they are sorted or afterwards. The readers drop the tag of a
variant. -/
theorem filter_sortMembers (p : String × Json → Bool) :
    (sortMembers members).filter p = sortMembers (members.filter p) := by
  have hfilter : ((members.filter p).map (·.1)).Nodup := h.sublist (List.filter_sublist.map _)
  exact Ascending.eq_of_perm ((ascending_sortMembers members).sublist List.filter_sublist)
    (ascending_sortMembers _)
    (((sortMembers_perm h).filter p).trans (sortMembers_perm hfilter).symm)

end

/-- Names that ascend differ. -/
theorem Ascending.nodup {members : List (String × Json)} (h : Ascending members) :
    (members.map (·.1)).Nodup :=
  List.pairwise_map.2 (h.imp fun hlt => String.ne_of_lt hlt)

/-- Members whose names ascend are sorted already. -/
theorem sortMembers_of_ascending {members : List (String × Json)} (h : Ascending members) :
    sortMembers members = members :=
  (ascending_sortMembers members).eq_of_perm h (sortMembers_perm h.nodup)

/-- A sorted document is not deeper than the document, so that the fuel for the one is enough for
the other. -/
theorem depth_normalize_le (j : Json) : j.normalize.depth ≤ j.depth := by
  induction j using parts_induction with
  | arr items ih =>
    rw [normalize_arr, depth, depth]
    refine Nat.succ_le_succ (depthItems_le_iff.2 fun k hk => ?_)
    obtain ⟨item, hitem, rfl⟩ := List.mem_map.1 hk
    exact Nat.le_trans (ih item hitem) (depthItems_le_iff.1 (Nat.le_refl _) item hitem)
  | obj members ih =>
    rw [normalize_obj, depth, depth]
    refine Nat.succ_le_succ (depthMembers_le_iff.2 fun k hk => ?_)
    obtain ⟨m, hm, rfl⟩ := List.mem_map.1 (mem_sortMembers hk)
    exact Nat.le_trans (ih m hm) (depthMembers_le_iff.1 (Nat.le_refl _) m hm)
  | leaf j h _ => exact Nat.le_of_eq (congrArg depth h)

/-- In a sorted document there are no repeated names, whatever there were in the document. -/
theorem unique_normalize (j : Json) : j.normalize.Unique := by
  have htrue : j.Throughout fun _ => True := fun _ _ => trivial
  refine htrue.normalize (fun k hdepth _ => ?_) (fun _ => trivial) fun _ hsorted => hsorted.nodup
  cases k with
  | arr | obj => cases hdepth
  | _ => trivial

/-- A sorted document is sorted once and for all. -/
theorem normalize_normalize (j : Json) : j.normalize.normalize = j.normalize := by
  induction j using parts_induction with
  | arr items ih =>
    rw [normalize_arr, normalize_arr, List.map_map]
    exact congrArg arr (List.map_congr_left ih)
  | obj members ih =>
    obtain ⟨sorted, hsorted⟩ : ∃ s, s = sortMembers (members.map fun m => (m.1, m.2.normalize)) :=
      ⟨_, rfl⟩
    have hkept : sorted.map (fun m => (m.1, m.2.normalize)) = sorted := by
      refine (List.map_congr_left fun k hk => ?_).trans (List.map_id sorted)
      obtain ⟨m, hm, rfl⟩ := List.mem_map.1 (mem_sortMembers (hsorted ▸ hk))
      exact congrArg (Prod.mk m.1) (ih m hm)
    rw [normalize_obj, ← hsorted, normalize_obj, hkept]
    exact congrArg obj (sortMembers_of_ascending (hsorted ▸ ascending_sortMembers _))
  | leaf j h _ => rw [h, h]

/-! ## Records -/

section

variable {tag : String} {names : List String} {naming : Naming}

/-- The values under a name in a sorted document are the sorted values under it. -/
theorem valuesOf_normalize {members : List (String × Json)} (h : (members.map (·.1)).Nodup)
    (name : String) : valuesOf name (sortMembers (members.map fun m => (m.1, m.2.normalize))) =
      (valuesOf name members).map normalize := by
  have hnames : ((members.map fun m => (m.1, m.2.normalize)).map (·.1)).Nodup := by
    rwa [List.map_map]
  rw [valuesOf_sortMembers hnames]
  simp [valuesOf, List.filter_map, Function.comp_def]

/-- A reader that gives the images of what another reader gives does so for whole lists. -/
theorem mapM_eq_map {α β : Type} {f f' : α → Option β} {g : β → β} {xs : List α}
    (h : ∀ x ∈ xs, f' x = (f x).map g) : xs.mapM f' = (xs.mapM f).map (·.map g) := by
  induction xs with
  | nil => rfl
  | cons x xs ih =>
    rw [List.mapM_cons, List.mapM_cons, h x List.mem_cons_self,
      ih fun y hy => h y (List.mem_cons_of_mem _ hy)]
    cases f x <;> cases xs.mapM f <;> rfl

/-- The fields of a sorted record are the sorted fields of the record. -/
theorem fields?_normalize {record : Json} (h : record.Unique) : record.normalize.fields? names =
    (record.fields? names).map (·.map (Option.map normalize)) := by
  cases record with
  | obj members =>
    rw [normalize_obj]
    refine mapM_eq_map fun name _ => ?_
    rw [valuesOf_normalize (unique_obj.1 h).1]
    cases valuesOf name members with
    | nil => rfl
    | cons value others => cases others <;> rfl
  | arr items =>
    rw [normalize_arr, fields?, fields?, List.length_map]
    split
    · simp [Function.comp_def]
    · rfl
  | _ => rfl

/-- A tag is a text and so is the same in a sorted document. -/
theorem tagged?_normalize (j : Json) :
    tagged? names naming j.normalize = tagged? names naming j := by
  cases j <;> rfl

/-- The record of a sorted variant is the sorted record of the variant. -/
theorem variant?_normalize {j : Json} (h : j.Unique) : j.normalize.variant? tag names naming =
    (j.variant? tag names naming).map fun found => (found.1, found.2.normalize) := by
  cases j with
  | obj members =>
    have hown := (unique_obj.1 h).1
    have hnames : ((members.map fun m => (m.1, m.2.normalize)).map (·.1)).Nodup := by
      rwa [List.map_map]
    rw [normalize_obj, variant?, variant?, valuesOf_normalize hown, filter_sortMembers hnames]
    cases valuesOf tag members with
    | nil => rfl
    | cons value others =>
      cases others with
      | nil =>
        simp only [List.map_cons, List.map_nil, tagged?_normalize, Option.map_map, normalize_obj,
          List.filter_map, Function.comp_def]
      | cons other others => rfl
  | arr items =>
    rw [normalize_arr]
    cases items with
    | nil => rfl
    | cons first items =>
      simp only [List.map_cons, variant?, tagged?_normalize, Option.map_map, normalize_arr,
        Function.comp_def]
  | _ => rfl

/-- A record without fields is sorted to one without fields. -/
theorem noFields?_normalize (j : Json) : j.normalize.noFields? = j.noFields? := by
  cases j with
  | arr items => cases items <;> rfl
  | _ => rfl

end

/-! ## Fields -/

/-- A reader reads from sorted documents what another one reads from the documents. -/
def Alike {α : Type} (fuel : Nat) (read' read : Json → α) : Prop :=
  ∀ j, j.Within fuel → read' j.normalize = read j

/-- A text is read alike, since sorting leaves it as it is. -/
theorem alike_str? {fuel : Nat} : Alike fuel str? str? := fun j _ => by cases j <;> rfl

/-- A whole number of 64 bits is read alike. -/
theorem alike_int64? {fuel : Nat} : Alike fuel int64? int64? := fun j _ => by cases j <;> rfl

/-- A whole number of 32 bits is read alike. -/
theorem alike_word? {fuel : Nat} : Alike fuel word? word? := fun j _ => by cases j <;> rfl

namespace Alike

variable {α : Type} {fuel : Nat} {read' read : Json → Option α} (h : Alike fuel read' read)

include h

/-- A field that has to be there is read alike if what stands in it is. -/
theorem required? {field : Option Json} (hfield : ∀ j ∈ field, j.Within fuel) :
    required? read' (field.map normalize) = required? read field := by
  cases field with
  | none => rfl
  | some j => exact h j (hfield j rfl)

/-- A field that may be left out is read alike if what stands in it is: sorting neither adds nor
drops it. -/
theorem optional? {field : Option Json} (hfield : ∀ j ∈ field, j.Within fuel) (absent : α) :
    optional? absent read' (field.map normalize) = optional? absent read field := by
  cases field with
  | none => rfl
  | some j => exact h j (hfield j rfl)

/-- What may be null is read alike if the rest is, since only null is sorted to null. -/
theorem nullable? : Alike fuel (nullable? read') (nullable? read) := by
  intro j hj
  cases j with
  | null => rfl
  | _ => exact congrArg (Option.map some) (h _ hj)

/-- Items are read alike if each of them is; sorting an array keeps them in place. -/
theorem list? : Alike fuel (list? read') (list? read) := by
  intro j hj
  cases j with
  | arr items =>
    have hitems : ∀ item ∈ items, read' item.normalize = read item := fun item hitem =>
      h item (inherited_within.item (inherited_within.succ hj) hitem)
    rw [normalize_arr, Json.list?, Json.list?]
    clear hj
    induction items with
    | nil => rfl
    | cons item items ih =>
      rw [List.map_cons, List.mapM_cons, List.mapM_cons, hitems item List.mem_cons_self,
        ih fun j hj => hitems j (List.mem_cons_of_mem _ hj)]
  | _ => rfl

end Alike

/-- Enough fuel is as good as more. -/
theorem read_normalize_of_alike {α : Type} {read : Nat → Json → α}
    (h : ∀ fuel fuel', fuel ≤ fuel' → Alike fuel (read fuel') (read fuel)) {fuel fuel' : Nat}
    {j : Json} (hj : j.Within fuel) (hfuel' : j.normalize.depth < fuel') :
    read fuel' j.normalize = read fuel j := by
  have hsorted : ∀ n, j.normalize.depth < n →
      read n j.normalize = read (j.normalize.depth + 1) j.normalize := fun n hn => by
    have hread := h _ n hn j.normalize ⟨unique_normalize j, Nat.lt_succ_self _⟩
    rwa [normalize_normalize] at hread
  rw [← h fuel fuel (Nat.le_refl _) j hj, hsorted fuel' hfuel',
    hsorted fuel (Nat.lt_of_le_of_lt (depth_normalize_le j) hj.2)]

section

variable {α : Type} {names : List String} {fuel : Nat}

/-- A reader of lists that succeeds gives one result for each item. -/
theorem length_of_mapM {α β : Type} {f : α → Option β} {xs : List α} {ys : List β}
    (h : xs.mapM f = some ys) : ys.length = xs.length := by
  induction xs generalizing ys with
  | nil =>
    cases h
    rfl
  | cons x xs ih =>
    rw [List.mapM_cons] at h
    obtain ⟨y, -, h⟩ := Option.bind_eq_some_iff.1 h
    obtain ⟨rest, hrest, h⟩ := Option.bind_eq_some_iff.1 h
    cases h
    rw [List.length_cons, List.length_cons, ih hrest]

/-- A record that is read gives one field for each name, so that a reader may take the fields apart.
-/
theorem length_of_fields? {record : Json} {fields : List (Option Json)}
    (h : record.fields? names = some fields) : fields.length = names.length := by
  cases record with
  | obj members =>
    exact length_of_mapM h
  | arr items =>
    rw [fields?] at h
    split at h
    case isTrue hle =>
      cases h
      simp only [List.length_append, List.length_map, List.length_replicate]
      omega
    case isFalse => cases h
  | _ => cases h

/-- What is read from the variant of a sorted document is read from that of the document. -/
theorem bind_variant?_normalize {tag : String} {naming : Naming} {j : Json} (hj : j.Within fuel)
    {k k' : String × Json → Option α}
    (hk : ∀ name record, record.Within fuel → k' (name, record.normalize) = k (name, record)) :
    (j.normalize.variant? tag names naming >>= k') = (j.variant? tag names naming >>= k) := by
  rw [variant?_normalize hj.1]
  cases hfound : j.variant? tag names naming with
  | none => rfl
  | some found => exact hk found.1 found.2 (inherited_within.of_variant? hj hfound)

/-- What is read from the fields of a sorted record is read from those of the record. -/
theorem bind_fields?_normalize {record : Json} (hrecord : record.Within (fuel + 1))
    {k k' : List (Option Json) → Option α}
    (hk : ∀ fields, fields.length = names.length → (∀ field ∈ fields, ∀ j ∈ field, j.Within fuel) →
      k' (fields.map (Option.map normalize)) = k fields) :
    (record.normalize.fields? names >>= k') = (record.fields? names >>= k) := by
  rw [fields?_normalize hrecord.1]
  cases hfields : record.fields? names with
  | none => rfl
  | some fields =>
    refine hk fields (length_of_fields? hfields) fun field hfield j hj => ?_
    exact inherited_within.of_fields? hrecord hfields j (Option.mem_def.1 hj ▸ hfield)

variable {record : Json} (hrecord : record.Within (fuel + 1)) {k k' : List (Option Json) → Option α}

include hrecord

/-- What is read from a record with one field is read alike if what stands in the field is. -/
theorem bind_one_normalize {a : String} (hk : ∀ x : Option Json, (∀ j ∈ x, j.Within fuel) →
      k' [x.map normalize] = k [x]) :
    (record.normalize.fields? [a] >>= k') = (record.fields? [a] >>= k) := by
  refine bind_fields?_normalize hrecord fun fields hlength hfields => ?_
  match fields, hlength with
  | [x], _ => exact hk x (hfields x (.head _))

/-- What is read from a record with two fields is read alike if what stands in them is. -/
theorem bind_two_normalize {a b : String} (hk : ∀ x y : Option Json, (∀ j ∈ x, j.Within fuel) →
      (∀ j ∈ y, j.Within fuel) → k' [x.map normalize, y.map normalize] = k [x, y]) :
    (record.normalize.fields? [a, b] >>= k') = (record.fields? [a, b] >>= k) := by
  refine bind_fields?_normalize hrecord fun fields hlength hfields => ?_
  match fields, hlength with
  | [x, y], _ => exact hk x y (hfields x (.head _)) (hfields y (.tail _ (.head _)))

/-- What is read from a record with three fields is read alike if what stands in them is. -/
theorem bind_three_normalize {a b c : String} (hk : ∀ x y z : Option Json,
      (∀ j ∈ x, j.Within fuel) → (∀ j ∈ y, j.Within fuel) → (∀ j ∈ z, j.Within fuel) →
      k' [x.map normalize, y.map normalize, z.map normalize] = k [x, y, z]) :
    (record.normalize.fields? [a, b, c] >>= k') = (record.fields? [a, b, c] >>= k) := by
  refine bind_fields?_normalize hrecord fun fields hlength hfields => ?_
  match fields, hlength with
  | [x, y, z], _ =>
    exact hk x y z (hfields x (.head _)) (hfields y (.tail _ (.head _)))
      (hfields z (.tail _ (.tail _ (.head _))))

end

end Json

/-- Spans are read alike. -/
theorem Span.alike_ofJson? {fuel : Nat} : Json.Alike fuel Span.ofJson? Span.ofJson? := by
  intro j hj
  refine Json.bind_two_normalize
    (Json.inherited_within.succ hj) fun start length hstart hlength => ?_
  simp only [Json.alike_word?.required? hstart, Json.alike_word?.required? hlength]

/-- The span in a field that may be left out is read alike. -/
theorem Span.field?_normalize {fuel : Nat} {field : Option Json}
    (hfield : ∀ j ∈ field, j.Within fuel) :
    Span.field? (field.map Json.normalize) = Span.field? field :=
  Span.alike_ofJson?.optional? hfield _

/-- The nodes of a sorted list are read as those of the list are, if every node is. -/
theorem Json.alike_nodes? {α : Type} {name : String} {node : Json → α} {fuel : Nat}
    (h : ∀ n, Alike n node node) : Alike fuel (nodes? name node) (nodes? name node) := by
  intro j hj
  have hnode : Alike fuel (fun n => some (node n)) (fun n => some (node n)) :=
    fun n hn => congrArg some (h fuel n hn)
  refine bind_two_normalize (inherited_within.succ hj) fun nodes span hnodes hspan => ?_
  simp only [hnode.list?.optional? hnodes, Span.field?_normalize hspan]

/-! ## Expressions -/

namespace Expr

open Json

/-- A sorted expression is read as the expression is. -/
theorem alike_read (fuel : Nat) : ∀ (fuel' : Nat) (naming : Naming), fuel ≤ fuel' →
    Alike fuel (read naming fuel') (read naming fuel) := by
  induction fuel with
  | zero => exact fun _ _ _ _ hj => absurd hj.2 (Nat.not_lt_zero _)
  | succ fuel ih =>
    intro fuel' naming hle j hj
    obtain ⟨fuel', rfl⟩ : ∃ n, fuel' = n + 1 := ⟨fuel' - 1, by omega⟩
    have hread := ih fuel' .byNameOrPlace (Nat.le_of_succ_le_succ hle)
    rw [read, read]
    refine bind_variant?_normalize hj fun name record hrecord => ?_
    simp only
    split
    case h_1 | h_2 | h_3 | h_4 => rw [noFields?_normalize]
    case h_5 =>
      refine bind_one_normalize hrecord fun value hvalue => ?_
      simp only [alike_int64?.required? hvalue]
    case h_6 | h_7 | h_8 | h_9 | h_10 =>
      refine bind_one_normalize hrecord fun text htext => ?_
      simp only [alike_str?.required? htext]
    case h_11 =>
      refine bind_one_normalize hrecord fun elements helements => ?_
      simp only [hread.list?.optional? helements]
    case h_12 =>
      refine bind_one_normalize hrecord fun pairs hpairs => ?_
      refine congrArg (· >>= fun pairs => some (hash pairs))
        (Alike.optional? (Alike.list? fun j hj => ?_) hpairs [])
      cases j with
      | arr items =>
        rw [normalize_arr]
        rcases items with _ | ⟨key, _ | ⟨value, _ | ⟨_, _⟩⟩⟩
        case cons.cons.nil =>
          have hitems : ∀ item ∈ [key, value], item.Within fuel := fun item hitem =>
            inherited_within.item (inherited_within.succ hj) hitem
          simp only [List.map_cons, List.map_nil, hread key (hitems key (.head _)),
            hread value (hitems value (.tail _ (.head _)))]
        all_goals rfl
      | _ => rfl
    case h_13 =>
      refine bind_three_normalize hrecord fun receiver method arguments hreceiver hmethod
        harguments => ?_
      simp only [hread.nullable?.optional? hreceiver, alike_str?.required? hmethod,
        hread.list?.optional? harguments]
    case h_14 => rfl

end Expr

/-! ## Parameters -/

namespace ParamNode

open Json

/-- A sorted parameter is read as the parameter is. -/
theorem alike_read (fuel : Nat) : ∀ fuel', fuel ≤ fuel' → Alike fuel (read fuel') (read fuel) := by
  induction fuel with
  | zero => exact fun _ _ _ hj => absurd hj.2 (Nat.not_lt_zero _)
  | succ fuel ih =>
    intro fuel' hle j hj
    obtain ⟨fuel', rfl⟩ : ∃ n, fuel' = n + 1 := ⟨fuel' - 1, by omega⟩
    have hle := Nat.le_of_succ_le_succ hle
    have hexpr := Expr.alike_read fuel fuel' .byNameOrPlace hle
    have hread : Alike fuel (fun p => some (read fuel' p)) (fun p => some (read fuel p)) :=
      fun j hj => congrArg some (ih fuel' hle j hj)
    by_cases hstr : ∃ text, j = .str text
    · obtain ⟨text, rfl⟩ := hstr
      rfl
    · rw [read, read, normalize_normalize]
      · refine congrArg (Option.getD · _) (bind_variant?_normalize hj fun name record hrecord => ?_)
        simp only
        split
        case h_1 =>
          refine bind_two_normalize hrecord fun name span hname hspan => ?_
          simp only [alike_str?.required? hname, Span.field?_normalize hspan]
        case h_2 =>
          refine bind_three_normalize hrecord fun name value span hname hvalue hspan => ?_
          simp only [alike_str?.required? hname, hexpr.required? hvalue,
            Span.field?_normalize hspan]
        case h_3 | h_5 =>
          refine bind_two_normalize hrecord fun name span hname hspan => ?_
          simp only [alike_str?.nullable?.optional? hname, Span.field?_normalize hspan]
        case h_4 =>
          refine bind_three_normalize hrecord fun name value span hname hvalue hspan => ?_
          simp only [alike_str?.required? hname, hexpr.nullable?.optional? hvalue,
            Span.field?_normalize hspan]
        case h_6 =>
          refine bind_two_normalize hrecord fun parameters span hparameters hspan => ?_
          simp only [hread.list?.required? hparameters, Span.field?_normalize hspan]
        case h_7 =>
          refine bind_three_normalize hrecord fun receiver name span hreceiver hname hspan => ?_
          simp only [hexpr.required? hreceiver, alike_str?.required? hname,
            Span.field?_normalize hspan]
        case h_8 => rfl
      · exact fun text h => hstr ⟨text, h⟩
      · exact fun text h => hstr ⟨text, normalize_eq_str h⟩

/-- A sorted node is read as the node, with whatever fuel is more than its depth. -/
theorem read_normalize {fuel fuel' : Nat} {j : Json} (hj : j.Within fuel)
    (hfuel' : j.normalize.depth < fuel') : read fuel' j.normalize = read fuel j :=
  read_normalize_of_alike alike_read hj hfuel'

/-- Nodes of parameter lists are read alike, with the fuel that each document brings. -/
theorem alike_ofJson {fuel : Nat} : Alike fuel ofJson ofJson := fun _ hj =>
  read_normalize (inherited_within.own hj) (Nat.lt_succ_self _)

end ParamNode

/-- Parameter lists are read alike. -/
theorem ParamList.alike_ofJson? {fuel : Nat} :
    Json.Alike fuel ParamList.ofJson? ParamList.ofJson? := fun j hj =>
  congrArg (Option.map _) (Json.alike_nodes? (fun _ => ParamNode.alike_ofJson) j hj)

/-! ## Targets -/

namespace TargetNode

open Json

/-- The record of a variable is read alike, whatever kind of variable it is. -/
theorem readVariable_normalize {kind : VariableKind} {fuel : Nat} {record : Json}
    (hrecord : record.Within (fuel + 1)) :
    readVariable kind record.normalize = readVariable kind record := by
  refine bind_two_normalize hrecord fun name span hname hspan => ?_
  simp only [alike_str?.required? hname, Span.field?_normalize hspan]

/-- A sorted target is read as the target is. -/
theorem alike_read (fuel : Nat) : ∀ fuel', fuel ≤ fuel' → Alike fuel (read fuel') (read fuel) := by
  induction fuel with
  | zero => exact fun _ _ _ hj => absurd hj.2 (Nat.not_lt_zero _)
  | succ fuel ih =>
    intro fuel' hle j hj
    obtain ⟨fuel', rfl⟩ : ∃ n, fuel' = n + 1 := ⟨fuel' - 1, by omega⟩
    have hle := Nat.le_of_succ_le_succ hle
    have hexpr := Expr.alike_read fuel fuel' .byNameOrPlace hle
    have hread : Alike fuel (fun t => some (read fuel' t)) (fun t => some (read fuel t)) :=
      fun j hj => congrArg some (ih fuel' hle j hj)
    rw [read, read, normalize_normalize]
    refine congrArg (Option.getD · _) (bind_variant?_normalize hj fun name record hrecord => ?_)
    simp only
    split
    case h_1 | h_2 | h_3 => exact readVariable_normalize hrecord
    case h_4 =>
      refine bind_two_normalize hrecord fun targets span htargets hspan => ?_
      simp only [hread.list?.required? htargets, Span.field?_normalize hspan]
    case h_5 =>
      refine bind_two_normalize hrecord fun target span htarget hspan => ?_
      simp only [hread.nullable?.optional? htarget, Span.field?_normalize hspan]
    case h_6 =>
      refine bind_three_normalize hrecord fun receiver name span hreceiver hname hspan => ?_
      simp only [hexpr.required? hreceiver, alike_str?.required? hname, Span.field?_normalize hspan]
    case h_7 => rfl

/-- A sorted node is read as the node, with whatever fuel is more than its depth. -/
theorem read_normalize {fuel fuel' : Nat} {j : Json} (hj : j.Within fuel)
    (hfuel' : j.normalize.depth < fuel') : read fuel' j.normalize = read fuel j :=
  read_normalize_of_alike alike_read hj hfuel'

/-- Nodes of target lists are read alike, with the fuel that each document brings. -/
theorem alike_ofJson {fuel : Nat} : Alike fuel ofJson ofJson := fun _ hj =>
  read_normalize (inherited_within.own hj) (Nat.lt_succ_self _)

end TargetNode

/-- Target lists are read alike. -/
theorem TargetList.alike_ofJson? {fuel : Nat} :
    Json.Alike fuel TargetList.ofJson? TargetList.ofJson? := fun j hj =>
  congrArg (Option.map _) (Json.alike_nodes? (fun _ => TargetNode.alike_ofJson) j hj)

/-! ## Bodies -/

namespace Body

open Json

/-- The record of a callable body is read alike, whatever kind of body it is. -/
theorem readCallable_normalize {kind : CallableKind} {fuel : Nat} {record : Json}
    (hrecord : record.Within (fuel + 1)) :
    readCallable kind record.normalize = readCallable kind record := by
  refine bind_three_normalize hrecord fun name parameters span hname hparameters hspan => ?_
  simp only [alike_str?.required? hname, ParamList.alike_ofJson?.nullable?.optional? hparameters,
    Span.field?_normalize hspan]

/-- **Sorting.** A sorted body is read as the body is, if no names are repeated in it. -/
theorem ofJson?_normalize {j : Json} (h : j.Unique) : ofJson? j.normalize = ofJson? j := by
  have hj : j.Within (j.depth + 1) := ⟨h, Nat.lt_succ_self _⟩
  refine bind_variant?_normalize hj fun name record hrecord => ?_
  simp only
  split
  case h_1 | h_2 | h_3 => exact readCallable_normalize hrecord
  case h_4 =>
    refine bind_three_normalize hrecord fun name targets span hname htargets hspan => ?_
    simp only [alike_str?.required? hname, TargetList.alike_ofJson?.required? htargets,
      Span.field?_normalize hspan]
  case h_5 => rfl

end Body

end Formals
