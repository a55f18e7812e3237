import Formals.Proofs.Order
import Mathlib.Computability.Language

/-!
# The grammar of parameter lists

The names of parameters and of attribute writers, and the orders in which the parameters of a level
may come, as regular languages: `localNames`, `writerNames` and `levelOrder`. The tests of names and
the automaton of the order accept exactly these languages (`isLocalName_iff`, `isWriterName_iff`,
`accepts_iff`).
-/

namespace Formals

open scoped Computability

variable {α : Type}

/-! ## Words of one letter -/

/-- The words of one letter of a class. -/
def oneOf (p : α → Prop) : Language α := {word | ∃ x, p x ∧ word = [x]}

/-- Any number of letters of a class. -/
theorem mem_kstar_oneOf {p : α → Prop} {word : List α} :
    word ∈ (oneOf p)∗ ↔ ∀ x ∈ word, p x := by
  rw [Language.mem_kstar]
  constructor
  · rintro ⟨words, rfl, hwords⟩ x hx
    obtain ⟨w, hw, hx⟩ := List.mem_flatten.1 hx
    obtain ⟨y, hy, rfl⟩ := hwords w hw
    exact List.mem_singleton.1 hx ▸ hy
  · intro h
    refine ⟨word.map ([·]), (List.flatMap_singleton' word).symm, fun w hw => ?_⟩
    obtain ⟨x, hx, rfl⟩ := List.mem_map.1 hw
    exact ⟨x, h x hx, rfl⟩

/-! ## Names -/

/-- `[a-z_]` -/
def LocalStart (c : Char) : Prop := ('a' ≤ c ∧ c ≤ 'z') ∨ c = '_'

/-- `[A-Za-z0-9_]` -/
def NameChar (c : Char) : Prop :=
  ('A' ≤ c ∧ c ≤ 'Z') ∨ ('a' ≤ c ∧ c ≤ 'z') ∨ ('0' ≤ c ∧ c ≤ '9') ∨ c = '_'

/-- `[a-z_][A-Za-z0-9_]*` -/
def localNames : Language Char := oneOf LocalStart * (oneOf NameChar)∗

/-- `[a-z_][A-Za-z0-9_]*=` -/
def writerNames : Language Char := localNames * oneOf (· = '=')

/-- A small letter is one from `a` to `z`. -/
theorem isLower_iff {c : Char} : c.isLower = true ↔ 'a' ≤ c ∧ c ≤ 'z' := by
  change (decide ('a' ≤ c) && decide (c ≤ 'z')) = true ↔ _
  rw [Bool.and_eq_true, decide_eq_true_eq, decide_eq_true_eq]

/-- A capital letter is one from `A` to `Z`. -/
theorem isUpper_iff {c : Char} : c.isUpper = true ↔ 'A' ≤ c ∧ c ≤ 'Z' := by
  change decide ('A' ≤ c ∧ c ≤ 'Z') = true ↔ _
  rw [decide_eq_true_eq]

/-- A digit is one from `0` to `9`. -/
theorem isDigit_iff {c : Char} : c.isDigit = true ↔ '0' ≤ c ∧ c ≤ '9' := by
  change (decide ('0' ≤ c) && decide (c ≤ '9')) = true ↔ _
  rw [Bool.and_eq_true, decide_eq_true_eq, decide_eq_true_eq]

/-- The check of the first character of a local name decides whether it is one. -/
theorem isLocalStart_iff {c : Char} : isLocalStart c = true ↔ LocalStart c := by
  rw [isLocalStart, Bool.or_eq_true, isLower_iff, decide_eq_true_eq, LocalStart]

/-- The check of a character of a name decides whether it is one. -/
theorem isNameChar_iff {c : Char} : isNameChar c = true ↔ NameChar c := by
  change ((c.isUpper || c.isLower || c.isDigit) || decide (c = '_')) = true ↔ _
  rw [Bool.or_eq_true, Bool.or_eq_true, Bool.or_eq_true, isUpper_iff, isLower_iff, isDigit_iff,
    decide_eq_true_eq, NameChar, or_assoc, or_assoc]

/-- The test of a local name. -/
theorem isLocalName_iff {text : String} : isLocalName text = true ↔ text.toList ∈ localNames := by
  unfold isLocalName
  split
  · rename_i c rest htext
    rw [htext, Bool.and_eq_true, isLocalStart_iff, List.all_eq_true]
    simp only [isNameChar_iff]
    constructor
    · rintro ⟨hc, hrest⟩
      exact Language.mem_mul.2 ⟨[c], ⟨c, hc, rfl⟩, rest, mem_kstar_oneOf.2 hrest, rfl⟩
    · intro h
      obtain ⟨_, ⟨d, hd, rfl⟩, word, hword, heq⟩ := Language.mem_mul.1 h
      obtain ⟨rfl, rfl⟩ := List.cons_eq_cons.1 heq
      exact ⟨hd, mem_kstar_oneOf.1 hword⟩
  · rename_i htext
    rw [htext]
    refine ⟨nofun, fun h => ?_⟩
    obtain ⟨_, ⟨d, hd, rfl⟩, word, hword, heq⟩ := Language.mem_mul.1 h
    cases heq

/-- The test of the name of an attribute writer. -/
theorem isWriterName_iff {text : String} : isWriterName text = true ↔
    text.toList ∈ writerNames := by
  have hsplit : text.toList ∈ writerNames ↔
      ∃ name, text.toList.reverse = '=' :: name ∧ name.reverse ∈ localNames := by
    constructor
    · intro h
      obtain ⟨name, hname, _, ⟨_, rfl, rfl⟩, heq⟩ := Language.mem_mul.1 h
      exact ⟨name.reverse, by rw [← heq]; simp, by simpa using hname⟩
    · rintro ⟨name, heq, hname⟩
      refine Language.mem_mul.2 ⟨name.reverse, hname, ['='], ⟨'=', rfl, rfl⟩, ?_⟩
      have := congrArg List.reverse heq
      rwa [List.reverse_reverse, List.reverse_cons, eq_comm] at this
  rw [hsplit]
  unfold isWriterName
  split
  · rename_i name htext
    rw [isLocalName_iff, String.toList_ofList]
    constructor
    · exact fun h => ⟨name, htext, h⟩
    · rintro ⟨name', heq, h⟩
      obtain rfl : name = name' := (List.cons_eq_cons.1 (htext.symm.trans heq)).2
      exact h
  · rename_i hnot
    refine ⟨nofun, ?_⟩
    rintro ⟨name, heq, -⟩
    exact (hnot name heq).elim

/-! ## Levels -/

/-- The word of one part. -/
abbrev only (p : Part) : Language Part := oneOf (· = p)

/-- The orders of the parts of a level: `R* O* R* (S R*)? K* D?` with required, optional, rest,
keyword and keyword rest parameters. -/
def levelOrder : Language Part :=
  (only .positional)∗ * (only .optional)∗ * (only .positional)∗ *
    (only .rest * (only .positional)∗ + 1) * (only .keyword)∗ * (only .keywordRest + 1)

namespace Phase

variable {phase : Phase} {word rest : List Part} {p : Part}

/-- A part that leaves the phase as it is may come any number of times. -/
theorem Accepts.loop (hp : phase.next p = .ok phase) (hword : ∀ q ∈ word, q = p)
    (h : phase.Accepts rest) : phase.Accepts (word ++ rest) := by
  induction word with
  | nil => exact h
  | cons q word ih =>
    obtain rfl := hword q List.mem_cons_self
    exact ⟨phase, hp, ih fun q hq => hword q (List.mem_cons_of_mem _ hq)⟩

/-- A part that leads to another phase may come any number of times, if what follows may come in
either phase. -/
theorem Accepts.enter {next : Phase} (hp : phase.next p = .ok next)
    (hnext : next.next p = .ok next) (hword : ∀ q ∈ word, q = p) (h : phase.Accepts rest)
    (h' : next.Accepts rest) : phase.Accepts (word ++ rest) := by
  cases word with
  | nil => exact h
  | cons q word =>
    obtain rfl := hword q List.mem_cons_self
    exact ⟨next, hp, h'.loop hnext fun q hq => hword q (List.mem_cons_of_mem _ hq)⟩

/-- Nothing or one keyword rest. -/
theorem accepts_end (hp : phase.next .keywordRest = .ok .closed)
    (h : word ∈ only .keywordRest + 1) : phase.Accepts word := by
  rcases (Language.mem_add _ _ _).1 h with h | h
  · obtain ⟨_, rfl, rfl⟩ := h
    exact ⟨.closed, hp, trivial⟩
  · obtain rfl : word = [] := (Language.mem_one word).1 h
    trivial

/-- Keywords, and then perhaps a keyword rest. -/
theorem accepts_hashed (hk : phase.next .keyword = .ok .keywords)
    (hd : phase.next .keywordRest = .ok .closed)
    (h : word ∈ (only .keyword)∗ * (only .keywordRest + 1)) : phase.Accepts word := by
  obtain ⟨keywords, hkeywords, last, hlast, rfl⟩ := Language.mem_mul.1 h
  exact .enter hk rfl (mem_kstar_oneOf.1 hkeywords) (accepts_end hd hlast) (accepts_end rfl hlast)

/-- Perhaps a rest with required parameters behind it, and then those that take from the keyword
hash. -/
theorem accepts_rear (hs : phase.next .rest = .ok .afterRest)
    (hk : phase.next .keyword = .ok .keywords) (hd : phase.next .keywordRest = .ok .closed)
    (h : word ∈ (only .rest * (only .positional)∗ + 1) *
      ((only .keyword)∗ * (only .keywordRest + 1))) : phase.Accepts word := by
  obtain ⟨rear, hrear, hashed, hhashed, rfl⟩ := Language.mem_mul.1 h
  rcases (Language.mem_add _ _ _).1 hrear with hrear | hrear
  · obtain ⟨_, ⟨_, rfl, rfl⟩, tail, htail, rfl⟩ := Language.mem_mul.1 hrear
    exact ⟨.afterRest, hs, .loop rfl (mem_kstar_oneOf.1 htail) (accepts_hashed rfl rfl hhashed)⟩
  · obtain rfl : rear = [] := (Language.mem_one rear).1 hrear
    exact accepts_hashed hk hd hhashed

/-- A word that keeps the order is accepted. -/
theorem accepts_of_mem (h : word ∈ levelOrder) : Phase.leading.Accepts word := by
  rw [levelOrder, mul_assoc, mul_assoc, mul_assoc, mul_assoc] at h
  obtain ⟨leading, hleading, _, h₁, rfl⟩ := Language.mem_mul.1 h
  obtain ⟨optionals, hoptionals, _, h₂, rfl⟩ := Language.mem_mul.1 h₁
  obtain ⟨middle, hmiddle, rear, hrear, rfl⟩ := Language.mem_mul.1 h₂
  have hrequired := mem_kstar_oneOf.1 hmiddle
  refine .loop rfl (mem_kstar_oneOf.1 hleading)
    (.enter rfl rfl (mem_kstar_oneOf.1 hoptionals) ?_ ?_)
  · exact .loop rfl hrequired (accepts_rear rfl rfl rfl hrear)
  · exact .enter rfl rfl hrequired (accepts_rear rfl rfl rfl hrear) (accepts_rear rfl rfl rfl hrear)

end Phase

/-- An item that need not be there. -/
theorem toList_mem {p : Part} {language : Language Part} {item : Option Part}
    (hitem : ∀ q ∈ item, q = p) {word : List Part} (hword : word ∈ language)
    (hnone : item = none → word = []) : item.toList ++ word ∈ only p * language + 1 := by
  cases item with
  | none => exact .inr (hnone rfl)
  | some q =>
    obtain rfl := hitem q rfl
    exact .inl (Language.mem_mul.2 ⟨_, ⟨_, rfl, rfl⟩, word, hword, rfl⟩)

/-- **The order of a level.** The automaton accepts the words of the grammar. -/
theorem Phase.accepts_iff {word : List Part} :
    Phase.leading.Accepts word ↔ word ∈ levelOrder := by
  refine ⟨fun h => ?_, accepts_of_mem⟩
  obtain ⟨s⟩ : Nonempty (Shape id word) := exists_shape ((List.map_id word).symm ▸ h)
  rw [s.items_eq, levelOrder, mul_assoc, mul_assoc, mul_assoc, mul_assoc]
  refine Language.mem_mul.2 ⟨_, mem_kstar_oneOf.2 s.part_leading, _, ?_, rfl⟩
  refine Language.mem_mul.2 ⟨_, mem_kstar_oneOf.2 s.part_optionals, _, ?_, rfl⟩
  refine Language.mem_mul.2 ⟨_, mem_kstar_oneOf.2 s.part_middle, _, ?_, rfl⟩
  refine Language.mem_mul.2 ⟨s.rest.toList ++ s.tail,
    toList_mem s.part_rest (mem_kstar_oneOf.2 s.part_tail) s.tail_nil,
    s.keywords ++ s.keywordRest.toList, ?_, List.append_assoc ..⟩
  refine Language.mem_mul.2 ⟨_, mem_kstar_oneOf.2 s.part_keywords, _, ?_, rfl⟩
  have hlast : s.keywordRest.toList ++ [] ∈ only .keywordRest * 1 + 1 :=
    toList_mem s.part_keywordRest rfl fun _ => rfl
  rwa [List.append_nil, mul_one] at hlast

end Formals
