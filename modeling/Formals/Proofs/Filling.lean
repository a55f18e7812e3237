import Mathlib.Tactic.LinearCombination
import Mathlib.Tactic.Zify
import Formals.Diagnostic
import Formals.Proofs.Printing

/-!
# Filling in messages

The arguments of a message are filled in one after the other, and each time the whole text is
searched for the placeholder. `substitute` fills them in at once, and leaves what was filled in
alone. The two give the same as long as no placeholder arises from arguments that were filled in
before (`replaceAll_substitute_iff`), and so messages with one argument are always verbatim. In the
messages with two, the first argument must not contain the placeholder of the second
(`fill_verbatim_iff`).
-/

namespace Formals

/-! ## At once -/

/-- The numbered text whose placeholder a text begins with. -/
def filler? (numbered : List (String × Nat)) (text : List Char) : Option (String × Nat) :=
  numbered.find? fun n => (placeholder n.2).isPrefixOf text

/-- Fills numbered texts in for their placeholders, from left to right. -/
def substitute (numbered : List (String × Nat)) : List Char → List Char
  | [] => []
  | c :: rest =>
    match filler? numbered (c :: rest) with
    | some n =>
      n.1.toList ++ substitute numbered (rest.drop ((placeholder n.2).length - 1))
    | none => c :: substitute numbered rest
termination_by text => text.length
decreasing_by all_goals simp +arith [List.length_drop]

/-- A text with each placeholder of an argument replaced by the argument, and nothing else. -/
def substituted (text : String) (args : List String) : String :=
  String.ofList (substitute args.zipIdx text.toList)

/-- How often a pattern occurs in a text. -/
def occurrences (pattern : List Char) : List Char → Nat
  | [] => 0
  | c :: rest =>
    (if pattern.isPrefixOf (c :: rest) then 1 else 0) + occurrences pattern rest

/-- Each argument is its own placeholder, or its placeholder occurs, after the arguments before it
are filled in, only as often as in the text. -/
def Undisturbed (text : String) (args : List String) : Prop :=
  ∀ i a, args[i]? = some a → a.toList = placeholder i ∨
    occurrences (placeholder i) (substituted text (args.take i)).toList =
      occurrences (placeholder i) text.toList

/-! ## Placeholders -/

section Placeholders

variable {i j : Nat} {c : Char} {x z : List Char}

/-- A placeholder goes on with digits and its closing brace, so that no other one begins inside it.
-/
theorem mem_tail_placeholder (hc : c ∈ (placeholder i).tail) : c.isDigit = true ∨ c = '\x7d' := by
  rcases List.mem_append.1 (show c ∈ (toString i).toList ++ ['\x7d'] from hc) with hc | hc
  · exact .inl (isDigit_of_mem_repr hc)
  · exact .inr (List.mem_singleton.1 hc)

/-- A placeholder begins with a brace and has no other one like it. -/
theorem brace_not_mem_tail : '\x7b' ∉ (placeholder i).tail := fun hc =>
  (mem_tail_placeholder hc).elim (by decide) (by decide)

/-- A placeholder begins only with itself. -/
theorem placeholder_prefix_iff : placeholder i <+: placeholder j ++ z ↔ i = j := by
  have hdigits : ∀ (n : Nat) (w : List Char),
      ((toString n).toList ++ '\x7d' :: w).takeWhile Char.isDigit = (toString n).toList := by
    intro n w
    have hall : ∀ c ∈ (toString n).toList, c.isDigit = true := fun c hc => isDigit_of_mem_repr hc
    rw [List.takeWhile_append_of_pos hall, List.takeWhile_cons_of_neg (by decide), List.append_nil]
  constructor
  · rintro ⟨w, hw⟩
    have hrest : (toString i).toList ++ '\x7d' :: w = (toString j).toList ++ '\x7d' :: z := by
      simpa [placeholder] using hw
    have hsame := congrArg (List.takeWhile Char.isDigit) hrest
    rw [hdigits, hdigits] at hsame
    exact eq_of_repr (String.toList_inj.1 hsame)
  · rintro rfl
    exact List.prefix_append _ _

/-- A pattern that begins before a character that it does not go on with ends before it. -/
theorem prefix_append_cons_iff {pattern : List Char} (hc : c ∉ pattern.tail) (hx : x ≠ []) :
    pattern <+: x ++ c :: z ↔ pattern <+: x := by
  refine ⟨fun h => ?_, fun h => h.trans (List.prefix_append _ _)⟩
  rcases List.prefix_or_prefix_of_prefix h (List.prefix_append x (c :: z)) with h' | ⟨w, rfl⟩
  · exact h'
  · cases x with
    | nil => exact absurd rfl hx
    | cons d x =>
      rw [List.prefix_append_right_inj] at h
      cases w with
      | nil => simp
      | cons e w =>
        obtain rfl := (List.cons_prefix_cons.1 h).1
        simp at hc

end Placeholders

/-! ## Occurrences -/

section Occurrences

variable {pattern x z : List Char} {c : Char} {i : Nat}

/-- No occurrence goes over a character that the pattern does not go on with. -/
theorem occurrences_append_cons (hc : c ∉ pattern.tail) :
    occurrences pattern (x ++ c :: z) = occurrences pattern x + occurrences pattern (c :: z) := by
  induction x with
  | nil => simp [occurrences]
  | cons d x ih =>
    have hsame : pattern.isPrefixOf (d :: (x ++ c :: z)) = pattern.isPrefixOf (d :: x) := by
      rw [Bool.eq_iff_iff, List.isPrefixOf_iff_prefix, List.isPrefixOf_iff_prefix]
      exact prefix_append_cons_iff (x := d :: x) hc (List.cons_ne_nil _ _)
    rw [List.cons_append, occurrences, occurrences, hsame, ih, Nat.add_assoc]

/-- No placeholder begins before the first brace. -/
theorem isPrefixOf_of_ne (hc : c ≠ '\x7b') : (placeholder i).isPrefixOf (c :: z) = false :=
  List.isPrefixOf_cons_cons.trans (by simp [hc.symm])

/-- No placeholder begins in a text without an opening brace. -/
theorem occurrences_append_of_not_mem (hx : '\x7b' ∉ x) :
    occurrences (placeholder i) (x ++ z) = occurrences (placeholder i) z := by
  induction x with
  | nil => rfl
  | cons c x ih =>
    have hc := List.ne_of_not_mem_cons hx
    rw [List.cons_append, occurrences, isPrefixOf_of_ne hc.symm,
      ih (List.not_mem_of_not_mem_cons hx)]
    simp

/-- A placeholder that a text begins with is one more occurrence. -/
theorem occurrences_placeholder :
    occurrences (placeholder i) (placeholder i ++ z) = 1 + occurrences (placeholder i) z := by
  have hfirst : (placeholder i).isPrefixOf (placeholder i ++ z) = true :=
    List.isPrefixOf_iff_prefix.2 (List.prefix_append _ _)
  have hrest := occurrences_append_of_not_mem (z := z) (brace_not_mem_tail (i := i)) (i := i)
  change (if (placeholder i).isPrefixOf (placeholder i ++ z) then 1 else 0) +
    occurrences (placeholder i) ((placeholder i).tail ++ z) = _
  rw [hfirst, hrest, if_pos rfl]

/-- The occurrences around a placeholder are those before it and those behind it. -/
theorem occurrences_around : occurrences (placeholder i) (x ++ (placeholder i ++ z)) =
    occurrences (placeholder i) x + (1 + occurrences (placeholder i) z) := by
  rw [← occurrences_placeholder]
  exact occurrences_append_cons brace_not_mem_tail

/-- A text that is cut off in front has no more occurrences. -/
theorem occurrences_drop_le (n : Nat) : occurrences pattern (x.drop n) ≤ occurrences pattern x := by
  induction x generalizing n with
  | nil => simp
  | cons c x ih =>
    cases n with
    | zero => exact Nat.le_refl _
    | succ n => exact Nat.le_trans (ih n) (Nat.le_add_left _ _)

/-- A text in which a pattern occurs has a first occurrence of it. -/
theorem exists_first (hoccurs : occurrences pattern z ≠ 0) :
    ∃ x rest, z = x ++ (pattern ++ rest) ∧ occurrences pattern x = 0 := by
  induction z with
  | nil => exact absurd rfl hoccurs
  | cons c z ih =>
    by_cases hfirst : pattern.isPrefixOf (c :: z) = true
    · obtain ⟨rest, hrest⟩ := List.isPrefixOf_iff_prefix.1 hfirst
      exact ⟨[], rest, hrest.symm, rfl⟩
    · rw [occurrences, if_neg hfirst, Nat.zero_add] at hoccurs
      obtain ⟨x, rest, rfl, hx⟩ := ih hoccurs
      refine ⟨c :: x, rest, rfl, ?_⟩
      rw [occurrences, hx, if_neg]
      intro h
      exact hfirst (List.isPrefixOf_iff_prefix.2
        ((List.isPrefixOf_iff_prefix.1 h).trans (List.prefix_append (c :: x) _)))

/-- Induction from one placeholder with a number to the next. -/
@[elab_as_elim]
theorem placeholder_induction {motive : List Char → Prop} (i : Nat) (text : List Char)
    (clear : ∀ x, occurrences (placeholder i) x = 0 → motive x)
    (next : ∀ x z, occurrences (placeholder i) x = 0 → motive z →
      motive (x ++ (placeholder i ++ z))) : motive text := by
  induction hlength : text.length using Nat.strongRecOn generalizing text with
  | _ length ih =>
    by_cases hclear : occurrences (placeholder i) text = 0
    · exact clear text hclear
    · obtain ⟨x, z, rfl, hx⟩ := exists_first hclear
      refine next x z hx (ih z.length ?_ z rfl)
      rw [← hlength]
      simp [placeholder]
      omega

end Occurrences

/-! ## Filling in at once -/

section Substitute

variable {numbered : List (String × Nat)} {a : String} {i : Nat} {x z text : List Char}

/-- Nothing is filled in where no brace is opened. -/
theorem filler?_of_ne {c : Char} (hc : c ≠ '\x7b') : filler? numbered (c :: z) = none :=
  List.find?_eq_none.2 fun n _ => by
    rw [isPrefixOf_of_ne hc]
    exact Bool.false_ne_true

/-- What is filled in at the beginning of a text is not changed by a brace that is opened behind it:
a placeholder that begins in front of the brace ends there. -/
theorem filler?_append_brace (hx : x ≠ []) :
    filler? numbered (x ++ '\x7b' :: z) = filler? numbered x := by
  refine congrArg (numbered.find? ·) (funext fun n => ?_)
  rw [Bool.eq_iff_iff, List.isPrefixOf_iff_prefix, List.isPrefixOf_iff_prefix]
  exact prefix_append_cons_iff brace_not_mem_tail hx

/-- What is filled in for a placeholder is the first text that has its number. -/
theorem filler?_placeholder : filler? numbered (placeholder i ++ z) =
    numbered.find? (·.2 = i) := by
  refine congrArg (numbered.find? ·) (funext fun n => ?_)
  rw [Bool.eq_iff_iff, List.isPrefixOf_iff_prefix, placeholder_prefix_iff, decide_eq_true_iff]

/-- Where a text is filled in, its placeholder stands. -/
theorem prefix_of_filler? {n : String × Nat} (h : filler? numbered x = some n) :
    placeholder n.2 <+: x := by
  have hprefix := List.find?_some h
  exact List.isPrefixOf_iff_prefix.1 hprefix

/-- A text without an opening brace stays as it is. -/
theorem substitute_append_of_not_mem (hx : '\x7b' ∉ x) :
    substitute numbered (x ++ z) = x ++ substitute numbered z := by
  induction x with
  | nil => rfl
  | cons c x ih =>
    rw [List.cons_append, substitute, filler?_of_ne (List.ne_of_not_mem_cons hx).symm]
    exact congrArg (c :: ·) (ih (List.not_mem_of_not_mem_cons hx))

/-- A text can be cut where a placeholder may begin. -/
theorem substitute_append_brace : substitute numbered (x ++ '\x7b' :: z) =
    substitute numbered x ++ substitute numbered ('\x7b' :: z) := by
  induction x using substitute.induct numbered with
  | case1 => rw [substitute.eq_def numbered []]; rfl
  | case2 c x n hfiller ih =>
    have hshort := (prefix_of_filler? hfiller).length_le
    have hsame : filler? numbered (c :: (x ++ '\x7b' :: z)) = filler? numbered (c :: x) :=
      filler?_append_brace (List.cons_ne_nil c x)
    rw [List.cons_append]
    rw [substitute, substitute, hsame, hfiller]
    dsimp only
    rw [List.drop_append_of_le_length (by simp at hshort; omega), ih, List.append_assoc]
  | case3 c x hfiller ih =>
    have hsame : filler? numbered (c :: (x ++ '\x7b' :: z)) = filler? numbered (c :: x) :=
      filler?_append_brace (List.cons_ne_nil c x)
    rw [List.cons_append]
    rw [substitute, substitute, hsame, hfiller]
    exact congrArg (c :: ·) ih

/-- What a placeholder becomes depends only on its number. -/
theorem substitute_placeholder : substitute numbered (placeholder i ++ z) =
    ((numbered.find? (·.2 = i)).map (·.1.toList)).getD (placeholder i) ++
      substitute numbered z := by
  have hfiller : filler? numbered ('\x7b' :: ((placeholder i).tail ++ z)) =
      numbered.find? (·.2 = i) := filler?_placeholder
  have hrest : substitute numbered ((placeholder i).tail ++ z) =
      (placeholder i).tail ++ substitute numbered z :=
    substitute_append_of_not_mem brace_not_mem_tail
  change substitute numbered ('\x7b' :: ((placeholder i).tail ++ z)) = _
  rw [substitute, hfiller]
  cases hfind : numbered.find? (·.2 = i) with
  | none => exact congrArg ('\x7b' :: ·) hrest
  | some n =>
    obtain rfl : n.2 = i := by simpa using List.find?_some hfind
    have hdrop : ((placeholder n.2).tail ++ z).drop ((placeholder n.2).length - 1) = z :=
      List.drop_left' List.length_tail
    exact congrArg (fun z => n.1.toList ++ substitute numbered z) hdrop

/-- A placeholder is filled in, and with it what stands before it and behind it. -/
theorem substitute_around : substitute numbered (x ++ (placeholder i ++ z)) =
    substitute numbered x ++ (((numbered.find? (·.2 = i)).map (·.1.toList)).getD (placeholder i) ++
      substitute numbered z) := by
  rw [← substitute_placeholder]
  exact substitute_append_brace

/-- A number whose placeholder does not occur is of no use. -/
theorem substitute_concat_of_clear (hclear : occurrences (placeholder i) text = 0) :
    substitute (numbered ++ [(a, i)]) text = substitute numbered text := by
  have hfiller : ∀ c text, occurrences (placeholder i) (c :: text) = 0 →
      filler? (numbered ++ [(a, i)]) (c :: text) = filler? numbered (c :: text) := by
    intro c text hclear
    have hnone : filler? [(a, i)] (c :: text) = none := by
      rw [filler?, List.find?_singleton, if_neg]
      intro hfirst
      rw [occurrences, if_pos hfirst] at hclear
      omega
    rw [filler?, List.find?_append, ← filler?, ← filler?, hnone, Option.or_none]
  induction text using substitute.induct numbered with
  | case1 => rw [substitute, substitute]
  | case2 c x n hfound ih =>
    rw [substitute, substitute, hfiller c x hclear, hfound]
    refine congrArg (n.1.toList ++ ·) (ih ?_)
    have htail : occurrences (placeholder i) x ≤ 0 := hclear ▸ Nat.le_add_left _ _
    exact Nat.le_zero.1 (Nat.le_trans (occurrences_drop_le _) htail)
  | case3 c x hfound ih =>
    rw [substitute, substitute, hfiller c x hclear, hfound]
    exact congrArg (c :: ·) (ih (Nat.eq_zero_of_add_eq_zero_left hclear))

/-- Without arguments nothing is filled in. -/
theorem substitute_nil : substitute [] text = text := by
  induction text with
  | nil => rw [substitute]
  | cons c text ih =>
    rw [substitute]
    exact congrArg (c :: ·) ih

section

variable (hfresh : ∀ n ∈ numbered, n.2 ≠ i)

include hfresh

/-- The placeholder of another number stays where it is. -/
theorem substitute_around_of_fresh : substitute numbered (x ++ (placeholder i ++ z)) =
    substitute numbered x ++ (placeholder i ++ substitute numbered z) := by
  have hnone : numbered.find? (·.2 = i) = none :=
    List.find?_eq_none.2 fun n hn => by simpa using hfresh n hn
  rw [substitute_around, hnone]
  rfl

/-- At an occurrence of the new placeholder the new text is filled in, and in front of it and behind
it all texts are. The number has to be new, since the first text of a number is taken. -/
theorem substitute_concat_around : substitute (numbered ++ [(a, i)]) (x ++ (placeholder i ++ z)) =
    substitute (numbered ++ [(a, i)]) x ++
      (a.toList ++ substitute (numbered ++ [(a, i)]) z) := by
  have hsome : (numbered ++ [(a, i)]).find? (·.2 = i) = some (a, i) := by
    rw [List.find?_append, List.find?_eq_none.2 fun n hn => by simpa using hfresh n hn]
    simp
  rw [substitute_around, hsome]
  rfl

/-- No placeholder of another number gets lost. -/
theorem occurrences_le_substitute (text : List Char) : occurrences (placeholder i) text ≤
    occurrences (placeholder i) (substitute numbered text) := by
  induction text using placeholder_induction i with
  | clear x hx => exact hx ▸ Nat.zero_le _
  | next x z hx ih =>
    rw [substitute_around_of_fresh hfresh, occurrences_around, occurrences_around]
    omega

/-- Each time that a placeholder is filled in, the text grows by the difference of their lengths. -/
theorem length_substitute_concat (text : List Char) :
    (substitute (numbered ++ [(a, i)]) text).length +
        occurrences (placeholder i) text * (placeholder i).length =
      (substitute numbered text).length +
        occurrences (placeholder i) text * a.toList.length := by
  induction text using placeholder_induction i with
  | clear x hx => rw [substitute_concat_of_clear hx, hx, Nat.zero_mul, Nat.zero_mul]
  | next x z hx ih =>
    rw [substitute_concat_around hfresh, substitute_around_of_fresh hfresh,
      substitute_concat_of_clear hx, occurrences_around, hx]
    simp only [List.length_append, Nat.zero_add, Nat.add_mul, Nat.one_mul]
    omega

end

/-! ## One after the other -/

/-- To replace one placeholder is to fill in one text. -/
theorem replaceAll_eq_substitute :
    replaceAll (placeholder i) a.toList text = substitute [(a, i)] text := by
  induction text using replaceAll.induct (placeholder i) with
  | case1 => rw [replaceAll, substitute]
  | case2 c x hfirst ih =>
    have hfiller : filler? [(a, i)] (c :: x) = some (a, i) := by
      rw [filler?, List.find?_singleton, if_pos hfirst]
    rw [replaceAll, if_pos hfirst, substitute, hfiller]
    exact congrArg (a.toList ++ ·) ih
  | case3 c x hfirst ih =>
    have hfiller : filler? [(a, i)] (c :: x) = none := by
      rw [filler?, List.find?_singleton, if_neg hfirst]
    rw [replaceAll, if_neg hfirst, substitute, hfiller]
    exact congrArg (c :: ·) ih

/-- Where the placeholder does not occur nothing is replaced. -/
theorem substitute_single_of_clear (hclear : occurrences (placeholder i) text = 0) :
    substitute [(a, i)] text = text :=
  (substitute_concat_of_clear hclear).trans substitute_nil

/-- An occurrence is replaced between what is in front of it and what is behind it. -/
theorem substitute_single_around : substitute [(a, i)] (x ++ (placeholder i ++ z)) =
    substitute [(a, i)] x ++ (a.toList ++ substitute [(a, i)] z) :=
  substitute_concat_around (List.forall_mem_nil _)

/-- A text grows by the difference of the lengths at each occurrence. -/
theorem length_substitute_single (text : List Char) : (substitute [(a, i)] text).length +
      occurrences (placeholder i) text * (placeholder i).length =
    text.length + occurrences (placeholder i) text * a.toList.length := by
  have hfresh : ∀ n ∈ ([] : List (String × Nat)), n.2 ≠ i := List.forall_mem_nil _
  have hgrowth := length_substitute_concat (a := a) hfresh text
  rwa [substitute_nil] at hgrowth

/-- Replacing changes a text unless the pattern does not occur or is the replacement. -/
theorem substitute_eq_self_iff : substitute [(a, i)] text = text ↔
    a.toList = placeholder i ∨ occurrences (placeholder i) text = 0 := by
  induction text using placeholder_induction i with
  | clear x hx => exact iff_of_true (substitute_single_of_clear hx) (.inr hx)
  | next x z hx ih =>
    rw [substitute_single_around, substitute_single_of_clear hx, List.append_right_inj,
      occurrences_around]
    constructor
    · intro heq
      have hgrowth := length_substitute_single (a := a) (i := i) z
      have hlength := congrArg List.length heq
      rw [List.length_append, List.length_append] at hlength
      have hsame : (occurrences (placeholder i) z + 1) * a.toList.length =
          (occurrences (placeholder i) z + 1) * (placeholder i).length := by
        rw [Nat.add_mul, Nat.add_mul]
        omega
      exact .inl (List.append_inj_left heq (Nat.eq_of_mul_eq_mul_left (Nat.succ_pos _) hsame))
    · rintro (ha | hnone)
      · rw [ha, ih.2 (.inl ha)]
      · omega

section

variable (hfresh : ∀ n ∈ numbered, n.2 ≠ i)

include hfresh

/-- An occurrence of a new placeholder is kept when the earlier texts are filled in, and then
replaced. -/
theorem substitute_twice_around :
    substitute [(a, i)] (substitute numbered (x ++ (placeholder i ++ z))) =
      substitute [(a, i)] (substitute numbered x) ++
        (a.toList ++ substitute [(a, i)] (substitute numbered z)) := by
  rw [substitute_around_of_fresh hfresh, substitute_single_around]

/-- Texts of one length can only come from as many replacements, unless these do not change the
length. -/
theorem occurrences_eq_of_length_ne (hlength : a.toList.length ≠ (placeholder i).length)
    (heq : substitute [(a, i)] (substitute numbered text) =
      substitute (numbered ++ [(a, i)]) text) :
    occurrences (placeholder i) (substitute numbered text) = occurrences (placeholder i) text := by
  have honce := length_substitute_concat (a := a) hfresh text
  have htwice := length_substitute_single (a := a) (i := i) (substitute numbered text)
  rw [heq] at htwice
  generalize occurrences (placeholder i) (substitute numbered text) = m at htwice ⊢
  generalize occurrences (placeholder i) text = n at honce ⊢
  have hproduct : ((m : Int) - n) * (a.toList.length - (placeholder i).length) = 0 := by
    zify at honce htwice
    linear_combination honce - htwice
  rcases Int.mul_eq_zero.1 hproduct with h | h <;> omega

/-- Replacements that do not change the length are made at the same places. -/
theorem own_or_occurrences_eq (hlength : a.toList.length = (placeholder i).length)
    (heq : substitute [(a, i)] (substitute numbered text) =
      substitute (numbered ++ [(a, i)]) text) :
    a.toList = placeholder i ∨ occurrences (placeholder i) (substitute numbered text) =
      occurrences (placeholder i) text := by
  induction text using placeholder_induction i with
  | clear x hx =>
    rw [substitute_concat_of_clear hx] at heq
    exact (substitute_eq_self_iff.1 heq).imp_right (·.trans hx.symm)
  | next x z hx ih =>
    rw [substitute_twice_around hfresh, substitute_concat_around hfresh,
      substitute_concat_of_clear hx] at heq
    have hgrowth := length_substitute_single (a := a) (i := i) (substitute numbered x)
    rw [hlength] at hgrowth
    obtain ⟨hbefore, hbehind⟩ := List.append_inj heq (Nat.add_right_cancel hgrowth)
    rw [substitute_around_of_fresh hfresh, occurrences_around, occurrences_around, hx]
    rcases substitute_eq_self_iff.1 hbefore, ih (List.append_cancel_left hbehind) with
      ⟨ha | hbefore, ha | hbehind⟩
    · exact .inl ha
    · exact .inl ha
    · exact .inl ha
    · exact .inr (by rw [hbefore, hbehind])

/-- Filling in one text after the others is filling in all at once if the others bring in no more
placeholders of the last one. Those that there are in the first place are the same. -/
theorem substitute_twice (h : a.toList = placeholder i ∨
    occurrences (placeholder i) (substitute numbered text) = occurrences (placeholder i) text) :
    substitute [(a, i)] (substitute numbered text) = substitute (numbered ++ [(a, i)]) text := by
  induction text using placeholder_induction i with
  | clear x hx =>
    rw [substitute_concat_of_clear hx]
    exact substitute_eq_self_iff.2 (h.imp_right (·.trans hx))
  | next x z hx ih =>
    rw [substitute_around_of_fresh hfresh, occurrences_around, occurrences_around, hx] at h
    have hle := occurrences_le_substitute hfresh z
    rw [substitute_twice_around hfresh, substitute_concat_around hfresh,
      substitute_concat_of_clear hx, substitute_eq_self_iff.2 (h.imp_right fun h => by omega),
      ih (h.imp_right fun h => by omega)]

/-- **One more argument.** Replacing its placeholder fills it in unless arguments that were filled
in before have made more such placeholders. -/
theorem replaceAll_substitute_iff :
    replaceAll (placeholder i) a.toList (substitute numbered text) =
        substitute (numbered ++ [(a, i)]) text ↔
      a.toList = placeholder i ∨ occurrences (placeholder i) (substitute numbered text) =
        occurrences (placeholder i) text := by
  rw [replaceAll_eq_substitute]
  refine ⟨fun heq => ?_, substitute_twice hfresh⟩
  by_cases hlength : a.toList.length = (placeholder i).length
  · exact own_or_occurrences_eq hfresh hlength heq
  · exact .inr (occurrences_eq_of_length_ne hfresh hlength heq)

end

end Substitute

/-! ## Messages -/

/-- The last argument is filled in last, under the next number. -/
theorem fillFrom_concat (index : Nat) (text : List Char) (args : List String) (a : String) :
    fillFrom index text (args ++ [a]) =
      replaceAll (placeholder (index + args.length)) a.toList (fillFrom index text args) := by
  induction args generalizing index text with
  | nil => rfl
  | cons b args ih =>
    rw [List.cons_append, fillFrom, fillFrom, ih, List.length_cons, Nat.add_assoc,
      Nat.add_comm 1]

section Messages

variable {text a b : String} {args : List String}

/-- Texts are compared by their characters. -/
theorem fill_eq_iff : fill text args = substituted text args ↔
    fillFrom 0 text.toList args = substitute args.zipIdx text.toList :=
  String.ofList_inj

/-- The last argument is filled in verbatim after the others exactly if their texts bring in no
placeholder of it. -/
theorem fill_concat_iff (hargs : fill text args = substituted text args) :
    fill text (args ++ [a]) = substituted text (args ++ [a]) ↔
      a.toList = placeholder args.length ∨
        occurrences (placeholder args.length) (substituted text args).toList =
          occurrences (placeholder args.length) text.toList := by
  have hfresh : ∀ n ∈ args.zipIdx, n.2 ≠ args.length := fun n hn =>
    Nat.ne_of_lt (List.snd_lt_of_mem_zipIdx hn)
  rw [fill_eq_iff, fillFrom_concat, fill_eq_iff.1 hargs, List.zipIdx_append, Nat.zero_add,
    substituted, String.toList_ofList]
  exact replaceAll_substitute_iff hfresh

/-- A message is its text if no argument is given. -/
theorem substituted_nil : substituted text [] = text := by
  rw [substituted, List.zipIdx_nil, substitute_nil, String.ofList_toList]

/-- A message without arguments is verbatim. -/
theorem fill_nil : fill text [] = substituted text [] := by
  rw [substituted_nil]
  exact String.ofList_toList

/-- The first argument is always verbatim. -/
theorem fill_singleton : fill text [a] = substituted text [a] := by
  refine (fill_concat_iff fill_nil).2 (.inr ?_)
  rw [substituted_nil]

/-- All messages with the first so many arguments are verbatim if and only if no argument disturbs a
later one. -/
theorem fill_take_iff : (∀ n, fill text (args.take n) = substituted text (args.take n)) ↔
    Undisturbed text args := by
  have htake : ∀ {i a}, args[i]? = some a →
      args.take (i + 1) = args.take i ++ [a] ∧ (args.take i).length = i := by
    intro i a hi
    obtain ⟨hlt, -⟩ := List.getElem?_eq_some_iff.1 hi
    rw [List.take_add_one, hi, List.length_take_of_le (Nat.le_of_lt hlt)]
    exact ⟨rfl, rfl⟩
  constructor
  · intro h i a hi
    obtain ⟨hsucc, hlength⟩ := htake hi
    have hnext := h (i + 1)
    rw [hsucc, fill_concat_iff (h i), hlength] at hnext
    exact hnext
  · intro h n
    induction n with
    | zero => exact fill_nil
    | succ i ih =>
      cases hi : args[i]? with
      | none =>
        rw [List.take_add_one, hi]
        simpa using ih
      | some a =>
        obtain ⟨hsucc, hlength⟩ := htake hi
        rw [hsucc, fill_concat_iff ih, hlength]
        exact h i a hi

/-- With two arguments only the first one can disturb, and only the second one. -/
theorem undisturbed_pair_iff : Undisturbed text [a, b] ↔ b.toList = placeholder 1 ∨
    occurrences (placeholder 1) (substituted text [a]).toList =
      occurrences (placeholder 1) text.toList := by
  constructor
  · exact fun h => h 1 b rfl
  · intro h i c hi
    match i with
    | 0 => exact .inr (by rw [List.take_zero, substituted_nil])
    | 1 =>
      cases hi
      exact h
    | _ + 2 => cases hi

/-- Two arguments are verbatim exactly if they are undisturbed. -/
theorem fill_pair_iff : fill text [a, b] = substituted text [a, b] ↔ Undisturbed text [a, b] :=
  (fill_concat_iff fill_singleton).trans undisturbed_pair_iff.symm

end Messages

/-! ## The catalogue -/

/-- The entries of the catalogue with two placeholders. -/
def Template.withDetail : List Template :=
  [unreadableFile, invalidUnit, discardedRecord, compiledBody]

/-- A text that has the first placeholder in quotes, and no other one like it. -/
structure Quotes (text before behind : List Char) : Prop where
  split : text = before ++ '\x27' :: (placeholder 0 ++ '\x27' :: behind)
  before : '\x7b' ∉ before
  behind : occurrences (placeholder 0) behind = 0

/-- Every entry with two placeholders has the first one in quotes. This is all that is used of the
texts of the catalogue. -/
theorem Template.quotes {t : Template} (ht : t ∈ withDetail) :
    ∃ before behind : String, Quotes t.text.toList before.toList behind.toList := by
  simp only [withDetail, List.mem_cons, List.not_mem_nil, or_false] at ht
  rcases ht with rfl | rfl | rfl | rfl
  · exact ⟨"Cannot read file ", ": \x7b1\x7d.", by decide, by decide, by decide⟩
  · exact ⟨"Invalid compilation unit ", ": \x7b1\x7d.", by decide, by decide, by decide⟩
  · exact ⟨"Discarded cache entry for ", ": \x7b1\x7d.", by decide, by decide, by decide⟩
  · exact ⟨"Compiled ", " into \x7b1\x7d instructions.", by decide, by decide, by decide⟩

namespace Quotes

variable {text before behind x : List Char} {i : Nat}

/-- No placeholder runs across a quote, so that the occurrences in front of the quotes, between them
and behind them add up. -/
theorem occurrences_quoted :
    occurrences (placeholder i) (before ++ '\x27' :: (x ++ '\x27' :: behind)) =
    occurrences (placeholder i) before +
      (occurrences (placeholder i) x + occurrences (placeholder i) behind) := by
  have hquote : '\x27' ∉ (placeholder i).tail := fun hc =>
    (mem_tail_placeholder hc).elim (by decide) (by decide)
  have hskip : ∀ z, occurrences (placeholder i) ('\x27' :: z) = occurrences (placeholder i) z :=
    fun z => occurrences_append_of_not_mem (x := ['\x27']) (by decide)
  rw [occurrences_append_cons hquote, hskip, occurrences_append_cons hquote, hskip]

/-- Between its quotes an argument brings in the placeholders that it contains, and no more. -/
theorem occurrences_iff (h : Quotes text before behind) (a : String) :
    occurrences (placeholder 1) (substitute [(a, 0)] text) = occurrences (placeholder 1) text ↔
      occurrences (placeholder 1) a.toList = 0 := by
  have hbefore : '\x7b' ∉ before ++ ['\x27'] := by simp [h.before]
  have hbehind : substitute [(a, 0)] ('\x27' :: behind) = '\x27' :: behind := by
    refine substitute_eq_self_iff.2 (.inr ?_)
    exact (occurrences_append_of_not_mem (x := ['\x27']) (by decide)).trans h.behind
  have hfilled : substitute [(a, 0)] text = before ++ '\x27' :: (a.toList ++ '\x27' :: behind) := by
    have hsplit : text = (before ++ ['\x27']) ++ (placeholder 0 ++ '\x27' :: behind) := by
      rw [h.split, List.append_assoc]
      rfl
    rw [hsplit, substitute_append_of_not_mem hbefore, substitute_placeholder, hbehind,
      List.append_assoc]
    rfl
  have hnone : occurrences (placeholder 1) (placeholder 0) = 0 := by decide
  rw [hfilled, h.split, occurrences_quoted, occurrences_quoted, hnone]
  omega

end Quotes

/-- **Verbatim messages.** A message is verbatim, whatever number of its arguments is given, if and
only if each of them brings in no more placeholders of a later one. One argument is always verbatim,
and two are if and only if the first does not disturb the second; in the catalogue that is to say
that the first does not contain the placeholder of the second, unless the second is that
placeholder. -/
theorem fill_verbatim_iff (text : String) (args : List String) :
    ((∀ n, fill text (args.take n) = substituted text (args.take n)) ↔ Undisturbed text args) ∧
    (∀ a, fill text [a] = substituted text [a]) ∧
    (∀ a b, fill text [a, b] = substituted text [a, b] ↔ Undisturbed text [a, b]) ∧
    (∀ (t : Template) a, (t.instantiate [a]).text = substituted t.text [a]) ∧
    ∀ t ∈ Template.withDetail, ∀ a b, (t.instantiate [a, b]).text = substituted t.text [a, b] ↔
      b.toList = placeholder 1 ∨ occurrences (placeholder 1) a.toList = 0 := by
  refine ⟨fill_take_iff, fun a => fill_singleton, fun a b => fill_pair_iff,
    fun t a => fill_singleton, fun t ht a b => ?_⟩
  obtain ⟨before, behind, hquotes⟩ := t.quotes ht
  have hfilled : (substituted t.text [a]).toList = substitute [(a, 0)] t.text.toList :=
    String.toList_ofList
  refine (fill_pair_iff.trans undisturbed_pair_iff).trans (or_congr_right ?_)
  rw [hfilled]
  exact hquotes.occurrences_iff a

/-- A file that is named like a placeholder is not named in the message. -/
theorem unreadable_placeholder :
    (Template.unreadableFile.instantiate ["\x7b1\x7d", "missing"]).text =
        "Cannot read file 'missing': missing." ∧
      substituted Template.unreadableFile.text ["\x7b1\x7d", "missing"] =
        "Cannot read file '\x7b1\x7d': missing." := by
  decide +kernel

end Formals
