import Formals.Json.Parser
import Formals.Json.Printer
import Formals.Proofs.Parts

/-!
# Different documents, different texts

A document can be told from its text, also when something else comes after it (`text_unique`). A
string is read back as it was written (`stringBody?_chars`), the characters that close a document or
go on after it are not in the text of a number or a word, and the first character tells what kind of
document begins.

Of a number of double precision nothing is said but that it is not written as an integer: a document
is `Distinct` if it has only such numbers as are written in a way of their own.
-/

namespace Formals

/-! ## Numbers -/

/-- A natural number is written with digits only. -/
theorem isDigit_of_mem_repr {n : Nat} {c : Char} (h : c ∈ n.repr.toList) : c.isDigit = true := by
  rw [Nat.repr, String.toList_ofList] at h
  exact Nat.isDigit_of_mem_toDigits (by decide) (by decide) h

/-- An integer is written with digits and a minus. -/
theorem isDigit_of_mem_toString {n : Int} {c : Char} (h : c ∈ (toString n).toList) :
    c.isDigit = true ∨ c = '-' := by
  rw [Int.toString_eq_repr] at h
  cases n with
  | ofNat n => exact .inl (isDigit_of_mem_repr h)
  | negSucc n =>
    rw [Int.repr, String.toList_append] at h
    rcases List.mem_append.1 h with h | h
    · exact .inr (List.mem_singleton.1 h)
    · exact .inl (isDigit_of_mem_repr h)

/-- The text of a natural number begins with a digit. -/
theorem exists_repr (n : Nat) : ∃ c cs, n.repr.toList = c :: cs ∧ c.isDigit = true := by
  cases h : n.repr.toList with
  | nil =>
    rw [Nat.repr, String.toList_ofList] at h
    exact absurd h Nat.toDigits_ne_nil
  | cons c cs => exact ⟨c, cs, rfl, isDigit_of_mem_repr (h ▸ List.mem_cons_self)⟩

/-- The text of an integer begins with a digit or a minus. -/
theorem exists_toString (n : Int) : ∃ c cs, (toString n).toList = c :: cs ∧
    (c.isDigit = true ∨ c = '-') := by
  rw [Int.toString_eq_repr]
  cases n with
  | ofNat n =>
    obtain ⟨c, cs, h, hc⟩ := exists_repr n
    exact ⟨c, cs, h, .inl hc⟩
  | negSucc n => exact ⟨'-', _, String.toList_append, .inr rfl⟩

/-- Different natural numbers are written differently. -/
theorem eq_of_repr {m n : Nat} (h : m.repr = n.repr) : m = n := by
  have hdigits := congrArg (fun s : String => Nat.ofDigitChars 10 s.toList 0) h
  simpa only [Nat.repr, String.toList_ofList,
    Nat.ofDigitChars_toDigits (by decide : 1 < 10) (by decide : 10 ≤ 10)] using hdigits

/-- Different integers have different texts. -/
theorem eq_of_toString {m n : Int} (h : toString m = toString n) : m = n := by
  rw [Int.toString_eq_repr, Int.toString_eq_repr] at h
  have hlist := congrArg String.toList h
  cases m with
  | ofNat m =>
    obtain ⟨c, cs, hm, hc⟩ := exists_repr m
    cases n with
    | ofNat n => rw [eq_of_repr h]
    | negSucc n =>
      rw [Int.repr, Int.repr, String.toList_append, hm] at hlist
      rw [(List.cons.inj hlist).1] at hc
      cases hc
  | negSucc m =>
    cases n with
    | ofNat n =>
      obtain ⟨c, cs, hn, hc⟩ := exists_repr n
      rw [Int.repr, Int.repr, String.toList_append, hn] at hlist
      rw [← (List.cons.inj hlist).1] at hc
      cases hc
    | negSucc n =>
      rw [Int.repr, Int.repr, String.toList_append, String.toList_append] at hlist
      have hsucc := eq_of_repr (String.toList_inj.1 (List.append_cancel_left hlist))
      rw [Nat.succ.inj hsucc]

namespace Double

/-- The forms of a number that is not zero: digits, the point behind them, among them or in front of
them; or an exponent. -/
theorem placed_cases (digits : List Char) (exponent : Int) :
    (∃ n, placed digits exponent = digits ++ zeros n ++ ['.', '0']) ∨
      (∃ n, placed digits exponent = digits.take (n + 1) ++ '.' :: digits.drop (n + 1)) ∨
      (∃ n, placed digits exponent = '0' :: '.' :: (zeros n ++ digits)) ∨
      ∃ point fraction, (fraction = [] ∨ fraction = '.' :: digits.drop 1) ∧
        placed digits exponent = digits.take 1 ++ fraction ++
          'e' :: (toString (point : Int)).toList := by
  simp only [placed]
  split
  · exact .inl ⟨_, rfl⟩
  · split
    · rename_i hpoint
      obtain ⟨n, hn⟩ : ∃ n : Nat, (digits.length + exponent).toNat = n + 1 :=
        ⟨(digits.length + exponent).toNat - 1, by omega⟩
      rw [hn]
      exact .inr (.inl ⟨n, rfl⟩)
    · split
      · exact .inr (.inr (.inl ⟨_, rfl⟩))
      · refine .inr (.inr (.inr ⟨_, _, ?_, rfl⟩))
        split
        · exact .inl rfl
        · exact .inr rfl

section

variable {digits : List Char} (hdigits : ∀ c ∈ digits, c.isDigit = true)

include hdigits

/-- Digits that are put in their place are written with digits, points, exponents and minus only,
and so with nothing that ends a number. -/
theorem mem_placed {exponent : Int} {c : Char} (h : c ∈ placed digits exponent) :
    c.isDigit = true ∨ c = '.' ∨ c = 'e' ∨ c = '-' := by
  have htake : ∀ {n}, c ∈ digits.take n → c.isDigit = true := fun h =>
    hdigits c (List.mem_of_mem_take h)
  have hdrop : ∀ {n}, c ∈ digits.drop n → c.isDigit = true := fun h =>
    hdigits c (List.mem_of_mem_drop h)
  have hzeros : ∀ {n}, c ∈ zeros n → c.isDigit = true := fun h => (List.mem_replicate.1 h).2 ▸ rfl
  rcases placed_cases digits exponent with
    ⟨n, hp⟩ | ⟨n, hp⟩ | ⟨n, hp⟩ | ⟨point, fraction, hf, hp⟩
  all_goals rw [hp] at h
  · rcases List.mem_append.1 h with h | h
    · exact .inl ((List.mem_append.1 h).elim (hdigits c) hzeros)
    · rcases List.mem_cons.1 h with rfl | h
      · exact .inr (.inl rfl)
      · exact .inl (List.mem_singleton.1 h ▸ rfl)
  · rcases List.mem_append.1 h with h | h
    · exact .inl (htake h)
    · exact (List.mem_cons.1 h).elim (fun h => .inr (.inl h)) fun h => .inl (hdrop h)
  · rcases List.mem_cons.1 h with rfl | h
    · exact .inl rfl
    · exact (List.mem_cons.1 h).elim (fun h => .inr (.inl h)) fun h =>
        .inl ((List.mem_append.1 h).elim hzeros (hdigits c))
  · rcases List.mem_append.1 h with h | h
    · rcases List.mem_append.1 h with h | h
      · exact .inl (htake h)
      · rcases hf with rfl | rfl
        · cases h
        · exact (List.mem_cons.1 h).elim (fun h => .inr (.inl h)) fun h => .inl (hdrop h)
    · rcases List.mem_cons.1 h with h | h
      · exact .inr (.inr (.inl h))
      · exact (isDigit_of_mem_toString h).imp_right fun h => .inr (.inr h)

/-- Digits that are put in their place begin with a digit, by which a number is told from all else.
-/
theorem exists_placed (hne : digits ≠ []) (exponent : Int) :
    ∃ c cs, placed digits exponent = c :: cs ∧ c.isDigit = true := by
  obtain ⟨d, ds, rfl⟩ := List.exists_cons_of_ne_nil hne
  have hd : d.isDigit = true := hdigits d List.mem_cons_self
  rcases placed_cases (d :: ds) exponent with
    ⟨n, hp⟩ | ⟨n, hp⟩ | ⟨n, hp⟩ | ⟨point, fraction, -, hp⟩
  · exact ⟨d, _, hp, hd⟩
  · exact ⟨d, _, hp, hd⟩
  · exact ⟨'0', _, hp, rfl⟩
  · exact ⟨d, _, hp, hd⟩

end

/-- There is a point or an exponent among the digits. -/
theorem exists_mem_placed (digits : List Char) (exponent : Int) :
    ∃ c ∈ placed digits exponent, c = '.' ∨ c = 'e' := by
  rcases placed_cases digits exponent with
    ⟨n, hp⟩ | ⟨n, hp⟩ | ⟨n, hp⟩ | ⟨point, fraction, -, hp⟩
  all_goals rw [hp]
  · exact ⟨'.', by simp, .inl rfl⟩
  · exact ⟨'.', by simp, .inl rfl⟩
  · exact ⟨'.', by simp, .inl rfl⟩
  · exact ⟨'e', by simp, .inr rfl⟩

/-- A number is written as some digits in their place. -/
theorem exists_digits (x : Double) : ∃ digits exponent, x.text.toList = placed digits exponent ∧
    digits ≠ [] ∧ ∀ c ∈ digits, c.isDigit = true := by
  have htext : ∃ n exponent, x.text.toList = placed (Nat.toDigits 10 n) exponent := by
    rw [text]
    split
    · exact ⟨0, 0, rfl⟩
    · generalize x.shortest = s
      obtain ⟨n, exponent⟩ := s
      exact ⟨n, exponent, String.toList_ofList⟩
  obtain ⟨n, exponent, h⟩ := htext
  exact ⟨_, exponent, h, Nat.toDigits_ne_nil, fun c hc =>
    Nat.isDigit_of_mem_toDigits (by decide) (by decide) hc⟩

/-- The text of a number begins with a digit. -/
theorem exists_text (x : Double) : ∃ c cs, x.text.toList = c :: cs ∧ c.isDigit = true := by
  obtain ⟨digits, exponent, h, hne, hdigits⟩ := x.exists_digits
  rw [h]
  exact exists_placed hdigits hne exponent

/-- A number of double precision is written with digits, points, exponents and minus only. -/
theorem mem_text {x : Double} {c : Char} (h : c ∈ x.text.toList) :
    c.isDigit = true ∨ c = '.' ∨ c = 'e' ∨ c = '-' := by
  obtain ⟨digits, exponent, hx, -, hdigits⟩ := x.exists_digits
  exact mem_placed hdigits (hx ▸ h)

/-- The text of a number is not that of an integer. -/
theorem text_ne_toString (x : Double) (n : Int) (sign : List Char) :
    (toString n).toList ≠ sign ++ x.text.toList := by
  intro h
  obtain ⟨digits, exponent, hx, -⟩ := x.exists_digits
  obtain ⟨c, hc, hmark⟩ := exists_mem_placed digits exponent
  have hmem : c ∈ (toString n).toList := h ▸ List.mem_append_right _ (hx ▸ hc)
  rcases isDigit_of_mem_toString hmem with hdigit | rfl
  · rcases hmark with rfl | rfl <;> cases hdigit
  · rcases hmark with hmark | hmark <;> cases hmark

end Double

namespace Json

/-! ## Strings -/

/-- How a character of a string is spelled: by itself or, if it is a control, by its number. -/
inductive SpelledAs : Spelled → Char → Prop
  | char {c : Char} : SpelledAs (.char c) c
  | unit {c : Char} : c.toNat < 0x20 → SpelledAs (.unit c.toNat) c

/-- A string that begins with a character. -/
def startsWith (u : Spelled) (s : Option (List Spelled × List Char)) :
    Option (List Spelled × List Char) := s.map fun (more, after) => (u :: more, after)

/-- A character behind a backslash that stands for another one is read as that. -/
theorem spelled?_escaped {e c : Char} (h : escaped? e = some c) (rest : List Char) :
    spelled? ('\\' :: e :: rest) = startsWith (.char c) (spelled? rest) := by
  have hu : e ≠ 'u' := by
    rintro rfl
    cases h
  rw [spelled?, h]
  · cases spelled? rest <;> rfl
  · exact fun _ _ _ _ _ h _ => hu h

/-- A character that need not be escaped is read as itself. -/
theorem spelled?_plain {c : Char} (hquote : c ≠ '"') (hescape : c ≠ '\\') (hc : ¬ c.toNat < 0x20)
    (rest : List Char) : spelled? (c :: rest) = startsWith (.char c) (spelled? rest) := by
  rw [spelled?, if_neg hc]
  · cases spelled? rest <;> rfl
  · exact hquote
  · exact fun _ _ _ _ _ h _ => hescape h
  · exact fun _ _ h _ => hescape h

/-- The number of a control character in four hexadecimal digits. -/
theorem control_text : ∀ n < 0x20,
    ("\\u00" ++ (if n < 0x10 then "0" else "") ++ hexDigits n).toList =
      ['\\', 'u', '0', '0', Nat.digitChar (n / 16), Nat.digitChar (n % 16)] ∧
    hexValue? (Nat.digitChar (n / 16)) = some (n / 16) ∧
    hexValue? (Nat.digitChar (n % 16)) = some (n % 16) := by
  decide

/-- A character is spelled as its text says. -/
theorem spelled?_charText (c : Char) : ∃ u, SpelledAs u c ∧ ∀ rest,
    spelled? ((charText c).toList ++ rest) = startsWith u (spelled? rest) := by
  unfold charText
  split
  case h_8 =>
    split
    case isTrue hcontrol =>
      obtain ⟨htext, hhigh, hlow⟩ := control_text c.toNat hcontrol
      refine ⟨.unit c.toNat, .unit hcontrol, fun rest => ?_⟩
      rw [htext]
      simp only [List.cons_append, List.nil_append, spelled?, hhigh, hlow]
      have hnumber : 0 * 4096 + 0 * 256 + c.toNat / 16 * 16 + c.toNat % 16 = c.toNat := by omega
      have hzero : hexValue? '0' = some 0 := rfl
      rw [hzero]
      simp only [Option.bind_eq_bind, Option.bind_some, hnumber]
      cases spelled? rest <;> rfl
    case isFalse hplain =>
      refine ⟨.char c, .char, fun rest => ?_⟩
      rw [show c.toString.toList = [c] from String.toList_singleton c]
      exact spelled?_plain ‹_› ‹_› hplain rest
  all_goals exact ⟨.char _, .char, fun rest => spelled?_escaped rfl rest⟩

/-- What a character is spelled as stands for that character. -/
theorem unspell?_cons {u : Spelled} {c : Char} (h : SpelledAs u c) (us : List Spelled) :
    unspell? (u :: us) = (unspell? us).map (c :: ·) := by
  cases h with
  | char => rw [unspell?]
  | unit hc =>
    -- A control character is no half of a surrogate pair, whatever comes next.
    cases us with
    | nil => simp only [unspell?, Char.ofNat_toNat]; rw [if_neg (by omega)]
    | cons v us =>
      cases v with
      | char d => simp only [unspell?, Char.ofNat_toNat]; rw [if_neg (by omega)]
      | unit n =>
        rw [unspell?, if_neg (by omega), if_neg (by omega), Char.ofNat_toNat]

/-- The characters of a string are read back. -/
theorem stringBody?_chars (cs rest : List Char) :
    stringBody? (cs.flatMap (fun c => (charText c).toList) ++ '"' :: rest) =
      some (some (String.ofList cs), rest) := by
  have hspelled : ∃ us, spelled? (cs.flatMap (fun c => (charText c).toList) ++ '"' :: rest) =
      some (us, rest) ∧ unspell? us = some cs := by
    induction cs with
    | nil => exact ⟨[], rfl, rfl⟩
    | cons c cs ih =>
      obtain ⟨us, hus, hcs⟩ := ih
      obtain ⟨u, hu, htext⟩ := spelled?_charText c
      refine ⟨u :: us, ?_, ?_⟩
      · rw [List.flatMap_cons, List.append_assoc, htext, hus]
        rfl
      · rw [unspell?_cons hu, hcs]
        rfl
  obtain ⟨us, hus, hcs⟩ := hspelled
  rw [stringBody?, hus]
  simp only [Option.map_some, hcs]

/-- A string is written as its characters between quotes. -/
theorem toList_stringText (s : String) (rest : List Char) : (stringText s).toList ++ rest =
    '"' :: (s.toList.flatMap (fun c => (charText c).toList) ++ '"' :: rest) := by
  simp [stringText, String.toList_join, List.flatMap_map]

/-- The text of a string tells where it ends and what it is. -/
theorem stringText_unique {s t : String} {cs ds : List Char}
    (h : (stringText s).toList ++ cs = (stringText t).toList ++ ds) : s = t ∧ cs = ds := by
  rw [toList_stringText, toList_stringText] at h
  have hbody := congrArg stringBody? (List.cons.inj h).2
  rw [stringBody?_chars, stringBody?_chars, String.ofList_toList, String.ofList_toList] at hbody
  obtain ⟨hst, hrest⟩ := Prod.mk.inj (Option.some.inj hbody)
  exact ⟨Option.some.inj hst, hrest⟩

/-! ## Documents -/

/-- The numbers of double precision in a document are written as no others are, and nothing in it is
broken. -/
def Distinct (j : Json) : Prop := j.Throughout fun
  | real _ x => ∀ y : Double, y.text = x.text → y = x
  | broken => False
  | _ => True

/-- The numbers in an array are written as no others are if those in its items are. -/
theorem distinct_arr {items : List Json} : (arr items).Distinct ↔ ∀ j ∈ items, j.Distinct :=
  throughout_arr.trans (and_iff_right trivial)

/-- The numbers in an object are written as no others are if those in the values of its members are.
-/
theorem distinct_obj {members : List (String × Json)} :
    (obj members).Distinct ↔ ∀ m ∈ members, m.2.Distinct :=
  throughout_obj.trans (and_iff_right trivial)

/-- What the text of a document begins with; a `0` stands for digits and minus. -/
def opener : Json → Char
  | null | broken => 'n'
  | bool true => 't'
  | bool false => 'f'
  | int _ | real .. => '0'
  | str _ => '"'
  | arr _ => '['
  | obj _ => '\x7b'

/-- What a text that begins with a character is. -/
def openedBy (c : Char) : Char := if c.isDigit || c = '-' then '0' else c

/-- The text of a document begins with a character that tells its kind, though not whether a number
is an integer. -/
theorem exists_text (j : Json) : ∃ c cs, j.text.toList = c :: cs ∧ openedBy c = j.opener := by
  have hnumber : ∀ {c : Char}, c.isDigit = true ∨ c = '-' → openedBy c = '0' := fun h => by
    rw [openedBy, if_pos (by simpa using h)]
  cases j with
  | null | broken => exact ⟨'n', _, rfl, rfl⟩
  | bool b =>
    cases b
    · exact ⟨'f', _, rfl, rfl⟩
    · exact ⟨'t', _, rfl, rfl⟩
  | int n =>
    obtain ⟨c, cs, h, hc⟩ := exists_toString n
    exact ⟨c, cs, h, hnumber hc⟩
  | real negative x =>
    cases negative with
    | true => exact ⟨'-', _, String.toList_append, rfl⟩
    | false =>
      obtain ⟨c, cs, h, hc⟩ := x.exists_text
      exact ⟨c, cs, by simp [text, h], hnumber (.inl hc)⟩
  | str s => exact ⟨'"', _, by simpa [text] using toList_stringText s [], rfl⟩
  | arr items => exact ⟨'[', (itemsText items ++ "]").toList, by simp [text], rfl⟩
  | obj members => exact ⟨'\x7b', (membersText members ++ "\x7d").toList, by simp [text], rfl⟩

/-- Equal texts begin equal kinds of documents. -/
theorem opener_eq {j k : Json} {s t : List Char}
    (h : j.text.toList ++ s = k.text.toList ++ t) : j.opener = k.opener := by
  obtain ⟨c, cs, hj, hc⟩ := exists_text j
  obtain ⟨d, ds, hk, hd⟩ := exists_text k
  rw [hj, hk] at h
  rw [← hc, ← hd, (List.cons.inj h).1]

/-! ## Numbers and words -/

/-- A document without parts that is no string. -/
def IsAtom : Json → Prop
  | null | bool _ | int _ | real .. | broken => True
  | str _ | arr _ | obj _ => False

/-- Whether a value in a document ends before a character. -/
def isCloser (c : Char) : Bool := c = ',' || c = ']' || c = '\x7d'

/-- Nothing follows, or what follows a value in a document. -/
def Closed (cs : List Char) : Prop := ∀ c ∈ cs.head?, isCloser c = true

/-- Nothing in the text of an atom ends it: no comma and no closing bracket. -/
theorem isCloser_of_mem_text {j : Json} (h : j.IsAtom) {c : Char} (hc : c ∈ j.text.toList) :
    isCloser c = false := by
  have hmark : c.isDigit = true ∨ c = '.' ∨ c = 'e' ∨ c = '-' → isCloser c = false := by
    rintro (h | rfl | rfl | rfl)
    · rw [isCloser, Bool.eq_false_iff]
      intro hcloser
      simp only [Bool.or_eq_true, decide_eq_true_eq] at hcloser
      rcases hcloser with (rfl | rfl) | rfl <;> cases h
    all_goals rfl
  have hword : ∀ word ∈ ["null", "true", "false"], ∀ c ∈ word.toList, isCloser c = false := by
    have hall : ["null", "true", "false"].all
        (fun word => word.toList.all fun c => !isCloser c) = true := by decide
    intro word hword c hc
    simpa using List.all_eq_true.1 (List.all_eq_true.1 hall word hword) c hc
  cases j with
  | null | broken => exact hword "null" (.head _) c hc
  | bool b =>
    cases b with
    | true => exact hword "true" (.tail _ (.head _)) c hc
    | false => exact hword "false" (.tail _ (.tail _ (.head _))) c hc
  | int n => exact hmark ((isDigit_of_mem_toString hc).imp_right fun h => .inr (.inr h))
  | real negative x =>
    rw [text, String.toList_append] at hc
    rcases List.mem_append.1 hc with hc | hc
    · cases negative with
      | true => exact hmark (.inr (.inr (.inr (List.mem_singleton.1 hc))))
      | false => cases hc
    · exact hmark (Double.mem_text hc)
  | str s => cases h
  | arr items => cases h
  | obj members => cases h

/-- What comes before the first character of a kind can be told from what comes after. -/
theorem append_unique {p : Char → Bool} {xs ys s t : List Char} (hx : ∀ c ∈ xs, p c = false)
    (hy : ∀ c ∈ ys, p c = false) (hs : ∀ c ∈ s.head?, p c = true) (ht : ∀ c ∈ t.head?, p c = true)
    (h : xs ++ s = ys ++ t) : xs = ys ∧ s = t := by
  induction xs generalizing ys with
  | nil =>
    cases ys with
    | nil => exact ⟨rfl, h⟩
    | cons y ys =>
      have hmark := hs y (by rw [show s = y :: (ys ++ t) from h]; rfl)
      rw [hy y List.mem_cons_self] at hmark
      cases hmark
  | cons x xs ih =>
    cases ys with
    | nil =>
      have hmark := ht x (by rw [show t = x :: (xs ++ s) from h.symm]; rfl)
      rw [hx x List.mem_cons_self] at hmark
      cases hmark
    | cons y ys =>
      obtain ⟨rfl, happend⟩ := List.cons.inj h
      obtain ⟨rfl, rfl⟩ := ih (fun c hc => hx c (List.mem_cons_of_mem _ hc))
        (fun c hc => hy c (List.mem_cons_of_mem _ hc)) happend
      exact ⟨rfl, rfl⟩

/-- A number of double precision that is written as no others are is told apart by its text, sign
included. -/
theorem eq_of_realText {negative negative' : Bool} {x y : Double}
    (hx : ∀ y : Double, y.text = x.text → y = x)
    (h : (real negative x).text = (real negative' y).text) :
    real negative x = real negative' y := by
  obtain ⟨c, cs, hxt, hc⟩ := x.exists_text
  obtain ⟨d, ds, hyt, hd⟩ := y.exists_text
  have hlist := congrArg String.toList h
  rw [text, text, String.toList_append, String.toList_append] at hlist
  have hsign : negative = negative' := by
    cases negative <;> cases negative' <;> simp [hxt, hyt] at hlist ⊢
    · rw [hlist.1] at hc
      cases hc
    · rw [← hlist.1] at hd
      cases hd
  subst hsign
  rw [hx y (String.toList_inj.1 (List.append_cancel_left hlist).symm)]

/-- Atoms with the same text are equal. -/
theorem eq_of_atomText {j k : Json} (hj : j.IsAtom) (hk : k.IsAtom) (hd : j.Distinct)
    (hs : k.sound = true) (h : j.text = k.text) : j = k := by
  have hopener : j.opener = k.opener := opener_eq (congrArg (String.toList · ++ []) h)
  have hlist := congrArg String.toList h
  cases j with
  | null =>
    cases k with
    | null => rfl
    | bool b => cases b <;> cases hopener
    | broken => cases hs
    | int _ | real _ _ => cases hopener
    | str _ | arr _ | obj _ => cases hk
  | bool b =>
    cases k with
    | bool b' => cases b <;> cases b' <;> first | rfl | cases hopener
    | null | broken | int _ | real _ _ => cases b <;> cases hopener
    | str _ | arr _ | obj _ => cases hk
  | int n =>
    cases k with
    | int m => rw [eq_of_toString h]
    | real negative x =>
      rw [text, text, String.toList_append] at hlist
      exact absurd hlist (x.text_ne_toString n _)
    | bool b => cases b <;> cases hopener
    | null | broken => cases hopener
    | str _ | arr _ | obj _ => cases hk
  | real negative x =>
    cases k with
    | int n =>
      rw [text, text, String.toList_append] at hlist
      exact absurd hlist.symm (x.text_ne_toString n _)
    | real negative' y => exact eq_of_realText hd.own h
    | bool b => cases b <;> cases hopener
    | null | broken => cases hopener
    | str _ | arr _ | obj _ => cases hk
  | broken => exact hd.own.elim
  | str _ | arr _ | obj _ => cases hj

/-- An atom can be told from its text, and where it ends. -/
theorem atom_unique {j k : Json} {s t : List Char} (hj : j.IsAtom) (hd : j.Distinct)
    (hk : k.sound = true) (hs : Closed s) (ht : Closed t)
    (h : j.text.toList ++ s = k.text.toList ++ t) : j = k ∧ s = t := by
  have hopener := opener_eq h
  have hkatom : k.IsAtom := by
    cases k with
    | str _ | arr _ | obj _ =>
      cases j with
      | bool b => cases b <;> cases hopener
      | str _ | arr _ | obj _ => cases hj
      | _ => cases hopener
    | _ => trivial
  obtain ⟨htext, hst⟩ := append_unique (fun c hc => isCloser_of_mem_text hj hc)
    (fun c hc => isCloser_of_mem_text hkatom hc) hs ht h
  exact ⟨eq_of_atomText hj hkatom hd hk (String.toList_inj.1 htext), hst⟩

/-! ## Arrays and objects -/

/-- The text of an array behind an item, or behind its last item. -/
def itemsRest : List Json → List Char
  | [] => [']']
  | j :: rest => ',' :: (j.text.toList ++ itemsRest rest)

/-- The text of an object behind a member, or behind its last member. -/
def membersRest : List (String × Json) → List Char
  | [] => ['\x7d']
  | (name, j) :: rest =>
    ',' :: ((stringText name).toList ++ ':' :: (j.text.toList ++ membersRest rest))

/-- The items of an array are written as the first one, and the others each behind a comma. -/
theorem toList_itemsText (j : Json) (rest : List Json) :
    (itemsText (j :: rest)).toList ++ [']'] = j.text.toList ++ itemsRest rest := by
  induction rest generalizing j with
  | nil => rfl
  | cons k rest ih => simp [itemsText, itemsRest, ih]

/-- The members of an object are written as the first one, and the others each behind a comma. -/
theorem toList_membersText (name : String) (j : Json) (rest : List (String × Json)) :
    (membersText ((name, j) :: rest)).toList ++ ['\x7d'] =
      (stringText name).toList ++ ':' :: (j.text.toList ++ membersRest rest) := by
  induction rest generalizing name j with
  | nil => simp [membersText, membersRest]
  | cons m rest ih =>
    obtain ⟨name', k⟩ := m
    simp [membersText, membersRest, ih]

/-- What comes behind an item is a comma or the end of the array. -/
theorem closed_itemsRest (js : List Json) (s : List Char) : Closed (itemsRest js ++ s) := by
  cases js <;> exact fun _ h => Option.some.inj h ▸ rfl

/-- What comes behind the value of a member is a comma or the end of the object. -/
theorem closed_membersRest (ms : List (String × Json)) (s : List Char) :
    Closed (membersRest ms ++ s) := by
  cases ms <;> exact fun _ h => Option.some.inj h ▸ rfl

/-- A value does not begin as an array ends. -/
theorem text_ne_bracket (j : Json) (s t : List Char) : j.text.toList ++ s ≠ ']' :: t := by
  obtain ⟨c, cs, hj, hc⟩ := exists_text j
  rw [hj]
  intro h
  rw [(List.cons.inj h).1] at hc
  cases j with
  | bool b => cases b <;> cases hc
  | _ => cases hc

/-- An array with items is written as a bracket, the first item and what comes behind that. -/
theorem toList_arrText (j : Json) (rest : List Json) (s : List Char) :
    (arr (j :: rest)).text.toList ++ s = '[' :: (j.text.toList ++ itemsRest rest ++ s) := by
  rw [← toList_itemsText]
  simp [text]

/-- An object with members is written as a brace, the first member and what comes behind that. -/
theorem toList_objText (name : String) (j : Json) (rest : List (String × Json)) (s : List Char) :
    (obj ((name, j) :: rest)).text.toList ++ s = '\x7b' ::
      ((stringText name).toList ++ ':' :: (j.text.toList ++ membersRest rest) ++ s) := by
  rw [← toList_membersText]
  simp [text]

/-- An array can be told from its text if its items can be. -/
theorem items_unique {js ks : List Json} {s t : List Char}
    (hrest : itemsRest js ++ s = itemsRest ks ++ t → js = ks ∧ s = t)
    (h : (arr js).text.toList ++ s = (arr ks).text.toList ++ t) : js = ks ∧ s = t := by
  cases js with
  | nil =>
    cases ks with
    | nil => exact ⟨rfl, List.append_cancel_left h⟩
    | cons k ks =>
      rw [toList_arrText, List.append_assoc] at h
      exact absurd (List.cons.inj h).2.symm (text_ne_bracket k _ _)
  | cons j js =>
    cases ks with
    | nil =>
      rw [toList_arrText, List.append_assoc] at h
      exact absurd (List.cons.inj h).2 (text_ne_bracket j _ _)
    | cons k ks =>
      rw [toList_arrText, toList_arrText] at h
      exact hrest (congrArg (',' :: ·) (List.cons.inj h).2)

/-- An object can be told from its text if its members can be. -/
theorem members_unique {ms ns : List (String × Json)} {s t : List Char}
    (hrest : membersRest ms ++ s = membersRest ns ++ t → ms = ns ∧ s = t)
    (h : (obj ms).text.toList ++ s = (obj ns).text.toList ++ t) : ms = ns ∧ s = t := by
  have hquote : ∀ (name : String) (u v : List Char),
      (stringText name).toList ++ u ≠ '\x7d' :: v := by
    intro name u v h
    rw [toList_stringText] at h
    cases (List.cons.inj h).1
  cases ms with
  | nil =>
    cases ns with
    | nil => exact ⟨rfl, List.append_cancel_left h⟩
    | cons n ns =>
      rw [toList_objText, List.append_assoc] at h
      exact absurd (List.cons.inj h).2.symm (hquote _ _ _)
  | cons m ms =>
    cases ns with
    | nil =>
      rw [toList_objText, List.append_assoc] at h
      exact absurd (List.cons.inj h).2 (hquote _ _ _)
    | cons n ns =>
      rw [toList_objText, toList_objText] at h
      exact hrest (congrArg (',' :: ·) (List.cons.inj h).2)

mutual
/-- **Texts.** A document whose numbers are distinct can be told from its text, and where it
ends. -/
theorem text_unique : ∀ (j k : Json) (s t : List Char), j.Distinct → k.sound = true → Closed s →
    Closed t → j.text.toList ++ s = k.text.toList ++ t → j = k ∧ s = t
  | str a, k, s, t, _, _, _, _, h => by
    have hopener := opener_eq h
    cases k with
    | str b =>
      obtain ⟨rfl, hst⟩ := stringText_unique h
      exact ⟨rfl, hst⟩
    | bool b => cases b <;> cases hopener
    | _ => cases hopener
  | arr js, k, s, t, hd, hk, _, _, h => by
    have hopener := opener_eq h
    cases k with
    | arr ks =>
      obtain ⟨rfl, hst⟩ := items_unique (itemsRest_unique js ks s t (distinct_arr.1 hd)
        (sound_arr.1 hk)) h
      exact ⟨rfl, hst⟩
    | bool b => cases b <;> cases hopener
    | _ => cases hopener
  | obj ms, k, s, t, hd, hk, _, _, h => by
    have hopener := opener_eq h
    cases k with
    | obj ns =>
      obtain ⟨rfl, hst⟩ := members_unique (membersRest_unique ms ns s t (distinct_obj.1 hd)
        (sound_obj.1 hk)) h
      exact ⟨rfl, hst⟩
    | bool b => cases b <;> cases hopener
    | _ => cases hopener
  | null, k, s, t, hd, hk, hs, ht, h | bool _, k, s, t, hd, hk, hs, ht, h
  | int _, k, s, t, hd, hk, hs, ht, h | real _ _, k, s, t, hd, hk, hs, ht, h
  | broken, k, s, t, hd, hk, hs, ht, h => atom_unique trivial hd hk hs ht h

/-- The items behind the first one are told apart by their texts, and these tell where the array
ends. -/
theorem itemsRest_unique : ∀ (js ks : List Json) (s t : List Char), (∀ j ∈ js, j.Distinct) →
    (∀ k ∈ ks, k.sound = true) → itemsRest js ++ s = itemsRest ks ++ t → js = ks ∧ s = t
  | [], [], s, t, _, _, h => ⟨rfl, List.append_cancel_left h⟩
  | [], _ :: _, s, t, _, _, h | _ :: _, [], s, t, _, _, h => by cases (List.cons.inj h).1
  | j :: js, k :: ks, s, t, hd, hk, h => by
    simp only [itemsRest, List.cons_append, List.append_assoc] at h
    obtain ⟨hd, hds⟩ := List.forall_mem_cons.1 hd
    obtain ⟨hk, hks⟩ := List.forall_mem_cons.1 hk
    obtain ⟨rfl, hrest⟩ := text_unique j k _ _ hd hk (closed_itemsRest js s)
      (closed_itemsRest ks t) (List.cons.inj h).2
    obtain ⟨rfl, hst⟩ := itemsRest_unique js ks s t hds hks hrest
    exact ⟨rfl, hst⟩

/-- The members behind the first one are told apart by their texts, and these tell where the object
ends. -/
theorem membersRest_unique : ∀ (ms ns : List (String × Json)) (s t : List Char),
    (∀ m ∈ ms, m.2.Distinct) → (∀ n ∈ ns, n.2.sound = true) →
    membersRest ms ++ s = membersRest ns ++ t → ms = ns ∧ s = t
  | [], [], s, t, _, _, h => ⟨rfl, List.append_cancel_left h⟩
  | [], (_, _) :: _, s, t, _, _, h | (_, _) :: _, [], s, t, _, _, h => by
    cases (List.cons.inj h).1
  | (a, j) :: ms, (b, k) :: ns, s, t, hd, hk, h => by
    simp only [membersRest, List.cons_append, List.append_assoc] at h
    obtain ⟨hd, hds⟩ := List.forall_mem_cons.1 hd
    obtain ⟨hk, hks⟩ := List.forall_mem_cons.1 hk
    obtain ⟨rfl, hvalue⟩ := stringText_unique (List.cons.inj h).2
    obtain ⟨rfl, hrest⟩ := text_unique j k _ _ hd hk (closed_membersRest ms s)
      (closed_membersRest ns t) (List.cons.inj hvalue).2
    obtain ⟨rfl, hst⟩ := membersRest_unique ms ns s t hds hks hrest
    exact ⟨rfl, hst⟩
end

/-- Different documents have different texts. -/
theorem eq_of_text {j k : Json} (hj : j.Distinct) (hk : k.sound = true) (h : j.text = k.text) :
    j = k :=
  (text_unique j k [] [] hj hk nofun nofun (congrArg (String.toList · ++ []) h)).1

end Json

end Formals
