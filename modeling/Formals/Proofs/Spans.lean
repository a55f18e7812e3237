import Formals.Proofs.Codec
import Formals.Proofs.RoundTrip

/-!
# Where spans end

Any two words are a span, for the reader of documents as for the reader of streams, and the offset
just past a span (`Span.reach`) may be more than a word holds. The word `stop` is that offset
exactly for a span that fits. The union of two spans begins at the lesser start and ends at the
greater stop (`toNat_start_union`, `toNat_stop_union`), and a span is known by these two words, so
the union is commutative, associative and idempotent whatever the spans are. It covers both, and is
the least span that does, exactly if both fit, or if neither does and a span covers both
(`isLeastCover_union_iff`).
-/

namespace Formals.Span

/-- The offset just past a span, as a number that a word may not hold. -/
def reach (s : Span) : Nat := s.start.toNat + s.length.toNat

/-- A word holds the offset just past a span. -/
def Fits (s : Span) : Prop := s.reach < UInt32.size

/-- A span begins where another one does or before, and ends where that one does or behind. -/
def Covers (s t : Span) : Prop := s.start.toNat ≤ t.start.toNat ∧ t.reach ≤ s.reach

instance (s t : Span) : Decidable (s.Covers t) := inferInstanceAs (Decidable (_ ∧ _))

/-- The least of the spans that cover two others. -/
structure IsLeastCover (u s t : Span) : Prop where
  left : u.Covers s
  right : u.Covers t
  least : ∀ v : Span, v.Covers s → v.Covers t → v.Covers u

variable {s t u : Span}

/-! ## The last word -/

/-- The stop of a span is its end as a word holds it. -/
theorem toNat_stop (s : Span) : s.stop.toNat = s.reach % UInt32.size := UInt32.toNat_add ..

/-- The stop of a span is its end if a word holds the end, and only then. -/
theorem stop_eq_reach_iff : s.stop.toNat = s.reach ↔ s.Fits := by
  rw [toNat_stop, Nat.mod_eq_iff_lt (by decide), Fits]

/-- No span ends before it begins. -/
theorem start_le_reach (s : Span) : s.start.toNat ≤ s.reach := Nat.le_add_right ..

/-- A span is no longer than a word can say. -/
theorem reach_lt (s : Span) : s.reach < s.start.toNat + UInt32.size :=
  Nat.add_lt_add_left s.length.toNat_lt_size _

/-- The stop of a span that does not fit is what is left after one turn through all words. -/
theorem stop_of_not_fits (h : ¬ s.Fits) : s.stop.toNat + UInt32.size = s.reach := by
  have hsize : UInt32.size ≤ s.reach := Nat.le_of_not_lt h
  have hstart := s.start.toNat_lt_size
  have hreach := s.reach_lt
  rw [toNat_stop, Nat.mod_eq_sub_mod hsize, Nat.mod_eq_of_lt (by omega), Nat.sub_add_cancel hsize]

/-- A span reaches as far as its stop, or one turn farther. -/
theorem reach_eq (s : Span) : s.reach =
    if s.start.toNat ≤ s.stop.toNat then s.stop.toNat else s.stop.toNat + UInt32.size := by
  have hle := s.start_le_reach
  have hlt := s.reach_lt
  by_cases h : s.Fits
  · have hstop := stop_eq_reach_iff.2 h
    rw [if_pos (by omega), hstop]
  · have hstop := stop_of_not_fits h
    rw [if_neg (by omega), hstop]

/-- A span is known by its start and its stop. -/
theorem eq_of_stop (hstart : s.start.toNat = t.start.toNat) (hstop : s.stop.toNat = t.stop.toNat) :
    s = t := by
  have hreach : s.reach = t.reach := by rw [reach_eq, reach_eq, hstart, hstop]
  rw [reach, reach, hstart] at hreach
  obtain ⟨start, length⟩ := s
  obtain ⟨start', length'⟩ := t
  exact congrArg₂ mk (UInt32.toNat_inj.1 hstart) (UInt32.toNat_inj.1 (Nat.add_left_cancel hreach))

/-! ## The union -/

/-- The union begins at the lesser of the two starts. -/
theorem toNat_start_union (s t : Span) :
    (s.union t).start.toNat = min s.start.toNat t.start.toNat := by
  show (if s.start ≤ t.start then s.start else t.start).toNat = _
  split <;> rename_i h <;> rw [UInt32.le_iff_toNat_le] at h <;> omega

/-- The union stops at the greater of the two stops. -/
theorem toNat_stop_union (s t : Span) :
    (s.union t).stop.toNat = max s.stop.toNat t.stop.toNat := by
  have hbounds (a b : UInt32) : (ofBounds a b).stop = b := by
    rw [stop, ofBounds, UInt32.add_comm, UInt32.sub_add_cancel]
  rw [union, hbounds]
  split <;> rename_i h <;> rw [UInt32.le_iff_toNat_le] at h <;> omega

/-- The union does not depend on which span comes first. -/
theorem union_comm (s t : Span) : s.union t = t.union s :=
  eq_of_stop (by simp only [toNat_start_union, Nat.min_comm])
    (by simp only [toNat_stop_union, Nat.max_comm])

/-- The union of three spans does not depend on which two are united first. -/
theorem union_assoc (s t u : Span) : (s.union t).union u = s.union (t.union u) :=
  eq_of_stop (by simp only [toNat_start_union, Nat.min_assoc])
    (by simp only [toNat_stop_union, Nat.max_assoc])

/-- A span united with itself is the span. -/
theorem union_self (s : Span) : s.union s = s :=
  eq_of_stop (by rw [toNat_start_union, Nat.min_self]) (by rw [toNat_stop_union, Nat.max_self])

/-! ## What the union covers -/

/-- If one of two spans fits, then the union ends at the greater stop. -/
theorem reach_union_of_fits (hs : s.Fits) :
    (s.union t).reach = max s.stop.toNat t.stop.toNat := by
  have hstop := stop_eq_reach_iff.2 hs
  have hle := s.start_le_reach
  rw [reach_eq, toNat_start_union, toNat_stop_union, if_pos (by omega)]

/-- The union of a span that fits with one that does not fails to cover the latter. -/
theorem not_covers_of_fits (hs : s.Fits) (ht : ¬ t.Fits) : ¬ (s.union t).Covers t := by
  rintro ⟨-, h⟩
  rw [reach_union_of_fits hs] at h
  exact ht (Nat.lt_of_le_of_lt h (Nat.max_lt.2 ⟨s.stop.toNat_lt_size, t.stop.toNat_lt_size⟩))

/-- If neither of two spans fits, and some span covers both, then the stops of both are one turn
behind, and so is the stop of the union. -/
theorem reach_union_of_not_fits (hs : ¬ s.Fits) (ht : ¬ t.Fits) (hus : u.Covers s)
    (hut : u.Covers t) : (s.union t).reach = max s.reach t.reach := by
  have hstop := stop_of_not_fits hs
  have hstop' := stop_of_not_fits ht
  have hlt : max s.stop.toNat t.stop.toNat < min s.start.toNat t.start.toNat := by
    have hlength := u.reach_lt
    have hleft := hus.1
    have hright := hut.1
    have hfar := Nat.max_le.2 ⟨hus.2, hut.2⟩
    omega
  rw [reach_eq, toNat_start_union, toNat_stop_union, if_neg (Nat.not_le_of_lt hlt), ← hstop,
    ← hstop', Nat.add_max_add_right]

/-- A union that ends where the farther of two spans does is the least cover of both. -/
theorem isLeastCover_of_reach (h : (s.union t).reach = max s.reach t.reach) :
    (s.union t).IsLeastCover s t := by
  have hstart := toNat_start_union s t
  refine ⟨⟨?_, ?_⟩, ⟨?_, ?_⟩, fun v hvs hvt => ⟨?_, ?_⟩⟩
  · exact hstart ▸ Nat.min_le_left ..
  · exact h ▸ Nat.le_max_left ..
  · exact hstart ▸ Nat.min_le_right ..
  · exact h ▸ Nat.le_max_right ..
  · exact hstart ▸ Nat.le_min.2 ⟨hvs.1, hvt.1⟩
  · exact h ▸ Nat.max_le.2 ⟨hvs.2, hvt.2⟩

/-- The union is the least cover if both spans fit, or neither does and there is a cover at all. -/
theorem isLeastCover_union_iff : (s.union t).IsLeastCover s t ↔
    (s.Fits ↔ t.Fits) ∧ ∃ u : Span, u.Covers s ∧ u.Covers t := by
  constructor
  · intro h
    refine ⟨⟨fun hs => ?_, fun ht => ?_⟩, _, h.left, h.right⟩
    · exact Classical.byContradiction fun ht => not_covers_of_fits hs ht h.right
    · exact Classical.byContradiction fun hs => not_covers_of_fits ht hs (union_comm s t ▸ h.left)
  · rintro ⟨hfits, u, hus, hut⟩
    refine isLeastCover_of_reach ?_
    by_cases hs : s.Fits
    · rw [reach_union_of_fits hs, stop_eq_reach_iff.2 hs, stop_eq_reach_iff.2 (hfits.1 hs)]
    · exact reach_union_of_not_fits hs (mt hfits.2 hs) hus hut

/-! ## Which spans there are -/

/-- A document with two words is read as a span. -/
theorem ofJson?_toJson (s : Span) : Span.ofJson? s.toJson = some s :=
  ofJson?_of_fields? s.fields?_toJson (Json.word?_toNat s.start) (Json.word?_toNat s.length)

/-- A span that is written in front of an instruction is read back as it was. -/
theorem decode_pushNil (s : Span) :
    Stream.decode (Stream.encode [⟨.pushNil, s⟩]) = .ok [⟨.pushNil, s⟩] := by
  have hfits : ∀ i ∈ ([⟨.pushNil, s⟩] : Stream), i.Fits := by
    intro i hi
    obtain rfl := List.mem_singleton.1 hi
    exact Instruction.InMemory.fits fun _ h => nomatch h
  have h : Decodes (Stream.encode [⟨.pushNil, s⟩] ++ []) ([⟨.pushNil, s⟩] ++ []) :=
    Decodes.encode_append hfits (decode_iff.1 rfl)
  rw [List.append_nil, List.append_nil] at h
  exact decode_iff.2 h

/-- **Spans.** Both readers take every span. The word just past a span is the offset there exactly
if that is less than two to the 32. The union of two spans is the least span that covers both
exactly if both end before that offset, or neither does and some span covers both. It is
commutative, associative and idempotent on all spans. -/
theorem union_least_iff (s t u : Span) :
    (Span.ofJson? s.toJson = some s ∧
      Stream.decode (Stream.encode [⟨.pushNil, s⟩]) = .ok [⟨.pushNil, s⟩]) ∧
    (s.stop.toNat = s.start.toNat + s.length.toNat ↔
      s.start.toNat + s.length.toNat < UInt32.size) ∧
    ((s.union t).IsLeastCover s t ↔
      (s.Fits ↔ t.Fits) ∧ ∃ v : Span, v.Covers s ∧ v.Covers t) ∧
    s.union t = t.union s ∧ (s.union t).union u = s.union (t.union u) ∧ s.union s = s :=
  ⟨⟨s.ofJson?_toJson, s.decode_pushNil⟩, stop_eq_reach_iff, isLeastCover_union_iff,
    union_comm s t, union_assoc s t u, union_self s⟩

/-- Documents can hold a span that does not fit. It covers one in it, and their union does not: its
stop is 9, so that the union is the span in it. -/
theorem union_forgets :
    let s : Span := ⟨10, 4294967295⟩
    let t : Span := ⟨10, 1⟩
    Span.ofJson? (.obj [("start", .int 10), ("length", .int 4294967295)]) = some s ∧
      Span.ofJson? (.obj [("start", .int 10), ("length", .int 1)]) = some t ∧
      s.stop.toNat ≠ s.start.toNat + s.length.toNat ∧ s.IsLeastCover s t ∧ s.union t = t ∧
      ¬ (s.union t).IsLeastCover s t := by
  intro s t
  refine ⟨s.ofJson?_toJson, t.ofJson?_toJson, by decide, ⟨by decide, by decide, fun _ h _ => h⟩,
    by decide, fun h => absurd h.left (by decide)⟩

end Formals.Span
