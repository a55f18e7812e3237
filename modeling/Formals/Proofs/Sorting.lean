import Formals.Diagnostic

/-!
# Sorting diagnostics

Diagnostics are sorted so that those of one place keep their order. Hence it does not matter whether
some of them are left out before or after sorting (`Diagnostic.filter_sort`).
-/

namespace Formals

section

variable {α : Type} {le : α → α → Bool}
  (htrans : ∀ a b c, le a b = true → le b c = true → le a c = true)
  (htotal : ∀ a b, (le a b || le b a) = true)

/-- A list is split in one way only into elements without and elements with a property. -/
theorem append_unique_of_filter {q : α → Bool} {xs ys us vs : List α} (h : xs ++ ys = us ++ vs)
    (hx : ∀ x ∈ xs, q x = false) (hy : ∀ y ∈ ys, q y = true) (hu : ∀ u ∈ us, q u = false)
    (hv : ∀ v ∈ vs, q v = true) : xs = us ∧ ys = vs := by
  have hnone : ∀ {zs : List α}, (∀ z ∈ zs, q z = false) → zs.filter q = [] := fun hz =>
    List.filter_eq_nil_iff.2 fun z hmem => by rw [hz z hmem]; exact nofun
  have hright := congrArg (List.filter q) h
  rw [List.filter_append, List.filter_append, hnone hx, hnone hu, List.filter_eq_self.2 hy,
    List.filter_eq_self.2 hv] at hright
  obtain rfl : ys = vs := hright
  exact ⟨List.append_cancel_right h, rfl⟩

include htrans htotal

/-- Stable sorting commutes with leaving elements out. -/
theorem filter_mergeSort (p : α → Bool) (l : List α) :
    (l.mergeSort le).filter p = (l.filter p).mergeSort le := by
  induction l with
  | nil => simp
  | cons a l ih =>
    obtain ⟨l₁, l₂, hcons, hl, hbefore⟩ := List.mergeSort_cons htrans htotal a l
    rw [hl, List.filter_append] at ih
    rw [hcons, List.filter_append]
    by_cases ha : p a = true
    · rw [List.filter_cons_of_pos ha, List.filter_cons_of_pos ha]
      obtain ⟨m₁, m₂, hcons', hm, hbefore'⟩ := List.mergeSort_cons htrans htotal a (l.filter p)
      have hafter : ∀ {us vs : List α}, (us ++ a :: vs).Pairwise (fun a b => le a b = true) →
          ∀ v ∈ vs, le a v = true := fun h =>
        (List.pairwise_cons.1 (List.pairwise_append.1 h).2.1).1
      have hsorted := List.pairwise_mergeSort htrans htotal (a :: l)
      have hsorted' := List.pairwise_mergeSort htrans htotal (a :: l.filter p)
      rw [hcons] at hsorted
      rw [hcons'] at hsorted' ⊢
      -- Both sides have in front of the new element what it must not stand before.
      obtain ⟨hfront, hback⟩ := append_unique_of_filter (q := le a) (ih.trans hm)
        (fun x hx => by simpa using hbefore x (List.mem_filter.1 hx).1)
        (fun y hy => hafter hsorted y (List.mem_filter.1 hy).1)
        (fun u hu => by simpa using hbefore' u hu) (hafter hsorted')
      rw [hfront, hback]
    · rw [List.filter_cons_of_neg ha, List.filter_cons_of_neg ha]
      exact ih

end

namespace Diagnostic

/-- The order of files is transitive. -/
theorem fileBefore_trans {f g k : Option String} (h : fileBefore f g = true)
    (h' : fileBefore g k = true) : fileBefore f k = true := by
  cases g with
  | none =>
    -- nothing stands before no file
    cases f <;> cases h
  | some g =>
    cases k with
    | none => cases h'
    | some k =>
      cases f with
      | none => rfl
      | some f =>
        exact decide_eq_true (String.lt_trans (of_decide_eq_true h) (of_decide_eq_true h'))

/-- Of two files that are not the same one stands before the other. -/
theorem fileBefore_total (f g : Option String) :
    fileBefore f g = true ∨ f = g ∨ fileBefore g f = true := by
  cases f with
  | none =>
    cases g with
    | none => exact .inr (.inl rfl)
    | some g => exact .inl rfl
  | some f =>
    cases g with
    | none => exact .inr (.inr rfl)
    | some g =>
      by_cases hlt : f < g
      · exact .inl (decide_eq_true hlt)
      · by_cases hgt : g < f
        · exact .inr (.inr (decide_eq_true hgt))
        · exact .inr (.inl (congrArg some
            (String.le_antisymm (String.not_lt.1 hgt) (String.not_lt.1 hlt))))

/-- Diagnostics are compared by their files, and in one file by their positions. -/
theorem notAfter_iff {d e : Diagnostic} : d.notAfter e = true ↔
    fileBefore d.file e.file = true ∨ d.file = e.file ∧ d.position ≤ e.position := by
  simp [notAfter]

/-- The order of diagnostics is transitive. -/
theorem notAfter_trans (d e f : Diagnostic) (h : d.notAfter e = true) (h' : e.notAfter f = true) :
    d.notAfter f = true := by
  rw [notAfter_iff] at *
  rcases h with h | ⟨hfile, hle⟩
  · rcases h' with h' | ⟨hfile', -⟩
    · exact .inl (fileBefore_trans h h')
    · exact .inl (hfile' ▸ h)
  · rcases h' with h' | ⟨hfile', hle'⟩
    · exact .inl (hfile ▸ h')
    · exact .inr ⟨hfile.trans hfile', UInt32.le_trans hle hle'⟩

/-- Of two diagnostics one does not stand after the other. -/
theorem notAfter_total (d e : Diagnostic) : (d.notAfter e || e.notAfter d) = true := by
  rw [Bool.or_eq_true, notAfter_iff, notAfter_iff]
  rcases fileBefore_total d.file e.file with h | h | h
  · exact .inl (.inl h)
  · rcases UInt32.le_total d.position e.position with hle | hle
    · exact .inl (.inr ⟨h, hle⟩)
    · exact .inr (.inr ⟨h.symm, hle⟩)
  · exact .inr (.inl h)

/-- Leaving diagnostics out keeps the others in order. -/
theorem filter_sort (p : Diagnostic → Bool) (ds : List Diagnostic) :
    (sort ds).filter p = sort (ds.filter p) :=
  filter_mergeSort notAfter_trans notAfter_total p ds

end Diagnostic

end Formals
